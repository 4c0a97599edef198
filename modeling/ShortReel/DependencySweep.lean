import ShortReel.ParentForests

/-!
# Sweeping dependents

A sweep walks from a blocker through everything that waits for it and takes each such key out of the
pending ones, depth first. Over a forest it takes them out in the order in which a walk that changes
nothing finds them.
-/

namespace ShortReel.DependencySweep

variable {σ κ : Type*}

/-- Marks every pending dependent of `blocker`, and after each its own dependents. `mark` gives
back nothing when the dependent was no longer pending. -/
def sweep (dependents : σ → κ → List κ) (mark : σ → κ → κ → Option σ) : ℕ → σ → κ → σ
  | 0, state, _ => state
  | fuel + 1, state, blocker =>
      (dependents state blocker).foldl
        (fun state dependent =>
          match mark state blocker dependent with
          | some marked => sweep dependents mark fuel marked dependent
          | none => state)
        state

def round (dependents : σ → κ → List κ) (mark : σ → κ → κ → Option σ) (fuel : ℕ) (blocker : κ)
    (state : σ) (dependent : κ) : σ :=
  match mark state blocker dependent with
  | some marked => sweep dependents mark fuel marked dependent
  | none => state

variable {dependents : σ → κ → List κ} {mark : σ → κ → κ → Option σ}

theorem sweep_succ (fuel : ℕ) (state : σ) (blocker : κ) :
    sweep dependents mark (fuel + 1) state blocker =
      (dependents state blocker).foldl (round dependents mark fuel blocker) state := rfl

theorem sweep_respects {r : σ → σ → Prop} (hrefl : ∀ state, r state state)
    (htrans : ∀ first second third, r first second → r second third → r first third)
    (hmark : ∀ state blocker dependent marked, mark state blocker dependent = some marked →
      r state marked) (fuel : ℕ) (state : σ) (blocker : κ) :
    r state (sweep dependents mark fuel state blocker) := by
  induction fuel generalizing state blocker with
  | zero => exact hrefl state
  | succ fuel ih =>
      rw [sweep_succ]
      generalize dependents state blocker = queue
      induction queue generalizing state with
      | nil => exact hrefl state
      | cons dependent queue ihqueue =>
          refine htrans _ _ _ ?_ (ihqueue (round dependents mark fuel blocker state dependent))
          unfold round
          split
          · rename_i marked hmarked
            exact htrans _ _ _ (hmark _ _ _ _ hmarked) (ih marked dependent)
          · exact hrefl state

variable [DecidableEq κ]

/-- How `dependents` and `mark` see the pending keys and who blocks whom, in the states a sweep
may meet. -/
structure Marks (valid : σ → Prop) (pending : σ → Finset κ) (blocks : σ → κ → κ → Prop)
    (dependents : σ → κ → List κ) (mark : σ → κ → κ → Option σ) : Prop where
  mem_dependents : ∀ state blocker dependent, valid state → dependent ∈ pending state →
    blocks state blocker dependent → dependent ∈ dependents state blocker
  mark_none : ∀ state blocker dependent, valid state → mark state blocker dependent = none →
    dependent ∉ pending state
  mark_mem : ∀ state blocker dependent marked, valid state →
    mark state blocker dependent = some marked → dependent ∈ pending state
  mark_pending : ∀ state blocker dependent marked, valid state →
    mark state blocker dependent = some marked → pending marked = (pending state).erase dependent
  mark_blocks : ∀ state blocker dependent marked, valid state →
    mark state blocker dependent = some marked → blocks marked = blocks state
  mark_valid : ∀ state blocker dependent marked, valid state →
    mark state blocker dependent = some marked → valid marked

/-- Between two states of a sweep keys only left the pending ones, and nothing still pending waits
for one that left. -/
structure Closed (valid : σ → Prop) (pending : σ → Finset κ) (blocks : σ → κ → κ → Prop)
    (before after : σ) : Prop where
  valid_after : valid after
  subset : pending after ⊆ pending before
  blocks_eq : blocks after = blocks before
  left : ∀ dependent ∈ pending after, ∀ blocker ∈ pending before, blocker ∉ pending after →
    ¬ blocks before blocker dependent

variable {valid : σ → Prop} {pending : σ → Finset κ} {blocks : σ → κ → κ → Prop}

omit [DecidableEq κ] in
theorem Closed.refl {state : σ} (hvalid : valid state) : Closed valid pending blocks state state :=
  ⟨hvalid, Finset.Subset.refl _, rfl, fun _ _ _ hmem hnot => absurd hmem hnot⟩

omit [DecidableEq κ] in
theorem Closed.trans {first second third : σ} (h₁ : Closed valid pending blocks first second)
    (h₂ : Closed valid pending blocks second third) : Closed valid pending blocks first third where
  valid_after := h₂.valid_after
  subset := h₂.subset.trans h₁.subset
  blocks_eq := h₂.blocks_eq.trans h₁.blocks_eq
  left := by
    intro dependent hdependent blocker hblocker hleft
    by_cases hsecond : blocker ∈ pending second
    · rw [← h₁.blocks_eq]
      exact h₂.left dependent hdependent blocker hsecond hleft
    · exact h₁.left dependent (h₂.subset hdependent) blocker hblocker hsecond

theorem closed_of_mark (marks : Marks valid pending blocks dependents mark)
    {state marked swept : σ} {blocker dependent : κ} (hvalid : valid state)
    (hmark : mark state blocker dependent = some marked)
    (hswept : Closed valid pending blocks marked swept)
    (hfree : ∀ other ∈ pending swept, ¬ blocks marked dependent other) :
    Closed valid pending blocks state swept where
  valid_after := hswept.valid_after
  subset := by
    refine hswept.subset.trans ?_
    rw [marks.mark_pending _ _ _ _ hvalid hmark]
    exact Finset.erase_subset _ _
  blocks_eq := hswept.blocks_eq.trans (marks.mark_blocks _ _ _ _ hvalid hmark)
  left := by
    intro other hother gone hgone hleft
    rw [← marks.mark_blocks _ _ _ _ hvalid hmark]
    by_cases heq : gone = dependent
    · rw [heq]
      exact hfree other hother
    · refine hswept.left other hother gone ?_ hleft
      rw [marks.mark_pending _ _ _ _ hvalid hmark]
      exact Finset.mem_erase.mpr ⟨heq, hgone⟩

/-- What a sweep achieves: it is closed, and nothing pending waits for its blocker. -/
def Swept (valid : σ → Prop) (pending : σ → Finset κ) (blocks : σ → κ → κ → Prop) (blocker : κ)
    (before after : σ) : Prop :=
  Closed valid pending blocks before after ∧
    ∀ other ∈ pending after, ¬ blocks before blocker other

theorem round_closed (marks : Marks valid pending blocks dependents mark) {fuel : ℕ}
    (ih : ∀ (state : σ) (blocker : κ), valid state → (pending state).card < fuel →
      Swept valid pending blocks blocker state (sweep dependents mark fuel state blocker))
    {state : σ} (hvalid : valid state) (hcard : (pending state).card ≤ fuel)
    (blocker dependent : κ) :
    Closed valid pending blocks state (round dependents mark fuel blocker state dependent) ∧
      dependent ∉ pending (round dependents mark fuel blocker state dependent) := by
  unfold round
  split
  · rename_i marked hmarked
    have hpending := marks.mark_pending _ _ _ _ hvalid hmarked
    have hless : (pending marked).card < fuel := by
      rw [hpending]
      exact (Finset.card_erase_lt_of_mem (marks.mark_mem _ _ _ _ hvalid hmarked)).trans_le hcard
    obtain ⟨hclosed, hfree⟩ := ih marked dependent (marks.mark_valid _ _ _ _ hvalid hmarked) hless
    refine ⟨closed_of_mark marks hvalid hmarked hclosed hfree, fun hin => ?_⟩
    have hin := hclosed.subset hin
    rw [hpending] at hin
    exact Finset.notMem_erase dependent _ hin
  · rename_i hnone
    exact ⟨Closed.refl hvalid, marks.mark_none _ _ _ hvalid hnone⟩

theorem sweep_closed (marks : Marks valid pending blocks dependents mark) {fuel : ℕ} {state : σ}
    (blocker : κ) (hvalid : valid state) (hfuel : (pending state).card < fuel) :
    Swept valid pending blocks blocker state (sweep dependents mark fuel state blocker) := by
  induction fuel generalizing state blocker with
  | zero => exact absurd hfuel (Nat.not_lt_zero _)
  | succ fuel ih =>
      -- Along the queue of dependents: what was handled is no longer pending.
      have hround : ∀ (queue : List κ) (state : σ), valid state → (pending state).card ≤ fuel →
          Closed valid pending blocks state
              (queue.foldl (round dependents mark fuel blocker) state) ∧
            ∀ dependent ∈ queue,
              dependent ∉ pending (queue.foldl (round dependents mark fuel blocker) state) := by
        intro queue
        induction queue with
        | nil => exact fun state hvalid _ => ⟨Closed.refl hvalid, by simp⟩
        | cons dependent queue ihqueue =>
            intro state hvalid hcard
            obtain ⟨hfirst, hgone⟩ := round_closed marks
              (fun state blocker hvalid hless => ih blocker hvalid hless) hvalid hcard blocker dependent
            obtain ⟨hrest, hhandled⟩ := ihqueue _ hfirst.valid_after
              ((Finset.card_le_card hfirst.subset).trans hcard)
            refine ⟨hfirst.trans hrest, fun other hother => ?_⟩
            rcases List.mem_cons.mp hother with rfl | hother
            · exact fun hin => hgone (hrest.subset hin)
            · exact hhandled other hother
      obtain ⟨hclosed, hhandled⟩ :=
        hround (dependents state blocker) state hvalid (Nat.lt_succ_iff.mp hfuel)
      rw [← sweep_succ] at hclosed hhandled
      refine ⟨hclosed, fun other hother hblocks => ?_⟩
      exact hhandled other
        (marks.mem_dependents _ _ _ hvalid (hclosed.subset hother) hblocks) hother

section Ends

variable (dependents : σ → κ → List κ) (mark : σ → κ → κ → Option σ)

/-- The recursion over the rest of a queue of dependents comes to its end. -/
inductive SweepsTo : κ → List κ → σ → σ → Prop
  | done (blocker : κ) (state : σ) : SweepsTo blocker [] state state
  | skip {blocker dependent : κ} {queue : List κ} {state last : σ}
      (hmark : mark state blocker dependent = none) (hrest : SweepsTo blocker queue state last) :
      SweepsTo blocker (dependent :: queue) state last
  | step {blocker dependent : κ} {queue : List κ} {state marked swept last : σ}
      (hmark : mark state blocker dependent = some marked)
      (hbelow : SweepsTo dependent (dependents marked dependent) marked swept)
      (hrest : SweepsTo blocker queue swept last) : SweepsTo blocker (dependent :: queue) state last

inductive Marked : σ → List (κ × κ) → σ → Prop
  | nil (state : σ) : Marked state [] state
  | cons {state marked last : σ} {pair : κ × κ} {pairs : List (κ × κ)}
      (hmark : mark state pair.1 pair.2 = some marked) (hrest : Marked marked pairs last) :
      Marked state (pair :: pairs) last

end Ends

theorem sweepsTo_sweep (marks : Marks valid pending blocks dependents mark) {fuel : ℕ} {state : σ}
    (blocker : κ) (hvalid : valid state) (hfuel : (pending state).card < fuel) :
    SweepsTo dependents mark blocker (dependents state blocker) state
      (sweep dependents mark fuel state blocker) := by
  induction fuel generalizing state blocker with
  | zero => exact absurd hfuel (Nat.not_lt_zero _)
  | succ fuel ih =>
      rw [sweep_succ]
      have hcard := Nat.lt_succ_iff.mp hfuel
      generalize dependents state blocker = queue
      induction queue generalizing state with
      | nil => exact .done blocker state
      | cons dependent queue ihqueue =>
          have hround := (round_closed marks (fun state blocker hvalid hless =>
            sweep_closed marks blocker hvalid hless) hvalid hcard blocker dependent).1
          have hleft := (Finset.card_le_card hround.subset).trans hcard
          have hrest := ihqueue hround.valid_after (Nat.lt_succ_iff.mpr hleft) hleft
          rw [List.foldl_cons]
          unfold round at hround hrest ⊢
          cases hmark : mark state blocker dependent with
          | none =>
              rw [hmark] at hrest
              exact .skip hmark hrest
          | some marked =>
              rw [hmark] at hrest
              have hless : (pending marked).card < fuel := by
                rw [marks.mark_pending _ _ _ _ hvalid hmark]
                exact (Finset.card_erase_lt_of_mem (marks.mark_mem _ _ _ _ hvalid hmark)).trans_le hcard
              exact .step hmark (ih dependent (marks.mark_valid _ _ _ _ hvalid hmark) hless) hrest

section Chains

variable {state middle last : σ} {pairs rest : List (κ × κ)}

omit [DecidableEq κ] in
theorem Marked.append (h : Marked mark state pairs middle) (h' : Marked mark middle rest last) :
    Marked mark state (pairs ++ rest) last := by
  induction h with
  | nil => exact h'
  | cons hmark _ ih => exact .cons hmark (ih h')

omit [DecidableEq κ] in
theorem sweep_marked {inv : σ → Prop} {reached : κ → Prop} {link : κ → κ → Prop}
    (hnext : ∀ blocker dependent, reached blocker → link blocker dependent → reached dependent)
    (hdependents : ∀ state blocker dependent, inv state → dependent ∈ dependents state blocker →
      link blocker dependent)
    (hmark : ∀ state blocker dependent marked, inv state → mark state blocker dependent = some marked →
      inv marked) (fuel : ℕ) {blocker : κ} (hinv : inv state) (hreached : reached blocker) :
    inv (sweep dependents mark fuel state blocker) ∧
      ∃ pairs, Marked mark state pairs (sweep dependents mark fuel state blocker) ∧
        ∀ pair ∈ pairs, reached pair.1 ∧ link pair.1 pair.2 := by
  induction fuel generalizing state blocker with
  | zero => exact ⟨hinv, [], .nil state, fun _ hpair => absurd hpair List.not_mem_nil⟩
  | succ fuel ih =>
      rw [sweep_succ]
      have hqueue := hdependents state blocker
      generalize dependents state blocker = queue at hqueue ⊢
      have hlinks : ∀ dependent ∈ queue, link blocker dependent := fun dependent hmem =>
        hqueue dependent hinv hmem
      clear hqueue
      induction queue generalizing state with
      | nil => exact ⟨hinv, [], .nil state, fun _ hpair => absurd hpair List.not_mem_nil⟩
      | cons dependent queue ihqueue =>
          obtain ⟨hlink, hlinks⟩ := List.forall_mem_cons.mp hlinks
          rw [List.foldl_cons]
          unfold round
          cases hmarked : mark state blocker dependent with
          | none => exact ihqueue hinv hlinks
          | some marked =>
              obtain ⟨hswept, pairs, hpairs, hreach⟩ :=
                ih (hmark _ _ _ _ hinv hmarked) (hnext _ _ hreached hlink)
              obtain ⟨hlast, rest, hrest, hreach'⟩ := ihqueue hswept hlinks
              refine ⟨hlast, (blocker, dependent) :: (pairs ++ rest),
                .cons hmarked (hpairs.append hrest), ?_⟩
              refine List.forall_mem_cons.mpr ⟨⟨hreached, hlink⟩, fun pair hpair => ?_⟩
              exact (List.mem_append.mp hpair).elim (hreach pair) (hreach' pair)

end Chains

open ParentForests

theorem exists_of_mapM {α β : Type*} {f : α → Option β} {items : List α} {results : List β}
    (h : items.mapM f = some results) : ∀ b ∈ results, ∃ a ∈ items, f a = some b := by
  induction items generalizing results with
  | nil =>
      cases h
      exact fun _ hmem => absurd hmem List.not_mem_nil
  | cons a items ih =>
      rw [List.mapM_cons] at h
      obtain ⟨first, hfirst, h⟩ := Option.bind_eq_some_iff.mp h
      obtain ⟨rest, hrest, h⟩ := Option.bind_eq_some_iff.mp h
      cases h
      refine List.forall_mem_cons.mpr ⟨⟨a, List.mem_cons_self, hfirst⟩, fun b hb => ?_⟩
      obtain ⟨a', ha', hb'⟩ := ih hrest b hb
      exact ⟨a', List.mem_cons_of_mem _ ha', hb'⟩

/-- The links below a key, depth first, each before those below it; nothing when the fuel runs out. -/
def below (dependents : κ → List κ) : ℕ → κ → Option (List (κ × κ))
  | 0, _ => none
  | fuel + 1, blocker =>
      ((dependents blocker).mapM fun dependent =>
        (below dependents fuel dependent).map ((blocker, dependent) :: ·)).map List.flatten

def Under (parent : κ → Option κ) (key above : κ) : Prop :=
  Relation.ReflTransGen (fun a b => parent a = some b) key above

/-- How `dependents` and `mark` see a forest of which a sweep takes keys out. -/
structure Forest (inv : σ → Prop) (parent : κ → Option κ) (waits : σ → κ → Prop)
    (dependents : σ → κ → List κ) (mark : σ → κ → κ → Option σ) : Prop where
  parent_eq : ∀ state blocker dependent, inv state → dependent ∈ dependents state blocker →
    parent dependent = some blocker
  waits_of_mem : ∀ state blocker dependent, inv state → dependent ∈ dependents state blocker →
    waits state dependent
  nodup : ∀ state blocker, inv state → (dependents state blocker).Nodup
  mark_some : ∀ state blocker dependent, inv state → waits state dependent →
    ∃ marked, mark state blocker dependent = some marked
  mark_inv : ∀ state blocker dependent marked, inv state →
    mark state blocker dependent = some marked → inv marked
  mark_waits : ∀ state blocker dependent marked, inv state →
    mark state blocker dependent = some marked → ∀ other, other ≠ dependent → waits state other →
    waits marked other
  mark_dependents : ∀ state blocker dependent marked, inv state →
    mark state blocker dependent = some marked → ∀ other, parent dependent ≠ some other →
    dependents marked other = dependents state other

section Order

variable {parent : κ → Option κ}

omit [DecidableEq κ] in
theorem Under.not_under_parent {key above : κ} (hgrounded : Grounded parent)
    (hparent : parent key = some above) : ¬ Under parent above key := fun hunder =>
  hgrounded.not_above hparent hunder rfl

omit [DecidableEq κ] in
theorem Under.not_sibling {key first second above : κ} (hgrounded : Grounded parent)
    (hfirst : parent first = some above) (hsecond : parent second = some above)
    (hne : first ≠ second) (hunder : Under parent key first) : ¬ Under parent key second := by
  have hapart : ∀ {a b : κ}, parent a = some above → parent b = some above → a ≠ b →
      ¬ Under parent a b := by
    intro a b ha hb hab hup
    rcases Relation.ReflTransGen.cases_head hup with hsame | ⟨c, hc, hup⟩
    · exact hab hsame
    · rw [ha] at hc
      exact Under.not_under_parent hgrounded hb (Option.some.inj hc ▸ hup)
  intro hunder'
  have hunique : Relator.RightUnique fun a b => parent a = some b := fun a b c hb hc =>
    Option.some.inj (hb.symm.trans hc)
  rcases Relation.ReflTransGen.total_of_right_unique hunique hunder hunder' with hup | hup
  · exact hapart hfirst hsecond hne hup
  · exact hapart hsecond hfirst hne.symm hup

omit [DecidableEq κ] in
theorem below_isSome {dependents : κ → List κ} {keys path : List κ} {key : κ} {fuel : ℕ}
    (hgrounded : Grounded parent)
    (hdependents : ∀ blocker, ∀ dependent ∈ dependents blocker,
      parent dependent = some blocker ∧ dependent ∈ keys)
    (hpath : Descent parent keys path key) (hfuel : keys.length < fuel + path.length) :
    ∃ pairs, below dependents fuel key = some pairs := by
  induction fuel generalizing path key with
  | zero =>
      have hlength := hpath.length_le
      omega
  | succ fuel ih =>
      have hsome : ∃ lists, (dependents key).mapM (fun dependent =>
          (below dependents fuel dependent).map ((key, dependent) :: ·)) = some lists := by
        have hqueue := hdependents key
        generalize dependents key = queue at hqueue
        induction queue with
        | nil => exact ⟨[], rfl⟩
        | cons dependent queue ihqueue =>
            obtain ⟨⟨hparent, hmem⟩, hrest⟩ := List.forall_mem_cons.mp hqueue
            obtain ⟨pairs, hpairs⟩ := ih (hpath.step hgrounded hparent hmem) (by
              rw [List.length_cons]
              omega)
            obtain ⟨lists, hlists⟩ := ihqueue hrest
            refine ⟨((key, dependent) :: pairs) :: lists, ?_⟩
            rw [List.mapM_cons, hpairs, hlists]
            rfl
      obtain ⟨lists, hlists⟩ := hsome
      exact ⟨lists.flatten, by rw [below, hlists, Option.map_some]⟩

omit [DecidableEq κ] in
theorem mem_below {dependents : κ → List κ} {fuel : ℕ} {key : κ} {pairs : List (κ × κ)}
    (h : below dependents fuel key = some pairs) : ∀ pair ∈ pairs, pair.2 ∈ dependents pair.1 := by
  induction fuel generalizing key pairs with
  | zero => cases h
  | succ fuel ih =>
      rw [below] at h
      obtain ⟨lists, hlists, rfl⟩ := Option.map_eq_some_iff.mp h
      intro pair hpair
      obtain ⟨found, hfound, hpair⟩ := List.mem_flatten.mp hpair
      obtain ⟨dependent, hdependent, hsome⟩ := exists_of_mapM hlists found hfound
      obtain ⟨rest, hrest, rfl⟩ := Option.map_eq_some_iff.mp hsome
      rcases List.mem_cons.mp hpair with rfl | hpair
      · exact hdependent
      · exact ih hrest pair hpair

variable {inv : σ → Prop} {waits : σ → κ → Prop}

/-- What a sweep below a key leaves: everything else, the keys in the order of the walk taken out. -/
structure InOrder (inv : σ → Prop) (parent : κ → Option κ) (waits : σ → κ → Prop)
    (dependents : σ → κ → List κ) (mark : σ → κ → κ → Option σ) (key : κ) (pairs : List (κ × κ))
    (before after : σ) : Prop where
  marked : Marked mark before pairs after
  inv_after : inv after
  kept : ∀ other, ¬ Under parent other key → dependents after other = dependents before other
  waits_kept : ∀ other, ¬ Under parent other key → waits before other → waits after other

omit [DecidableEq κ] in
theorem sweep_inOrder (hforest : Forest inv parent waits dependents mark)
    (hgrounded : Grounded parent) {start : σ} (hstart : inv start) {fuel : ℕ} {state : σ} {key : κ}
    {pairs : List (κ × κ)} (hinv : inv state)
    (hintact : ∀ other, Under parent other key → dependents state other = dependents start other)
    (hbelow : below (dependents start) fuel key = some pairs) :
    InOrder inv parent waits dependents mark key pairs state
      (sweep dependents mark fuel state key) := by
  induction fuel generalizing state key pairs with
  | zero => cases hbelow
  | succ fuel ih =>
      rw [below] at hbelow
      obtain ⟨lists, hlists, rfl⟩ := Option.map_eq_some_iff.mp hbelow
      clear hbelow
      rw [sweep_succ, hintact key Relation.ReflTransGen.refl]
      have hparents := fun dependent => hforest.parent_eq start key dependent hstart
      have hwaits : ∀ dependent ∈ dependents start key, waits state dependent := by
        intro dependent hmem
        rw [← hintact key Relation.ReflTransGen.refl] at hmem
        exact hforest.waits_of_mem state key dependent hinv hmem
      have hnodup := hforest.nodup start key hstart
      replace hintact : ∀ dependent ∈ dependents start key, ∀ other, Under parent other dependent →
          dependents state other = dependents start other := fun dependent hmem other hunder =>
        hintact other (hunder.tail (hparents dependent hmem))
      generalize dependents start key = queue at hlists hparents hwaits hnodup hintact
      induction queue generalizing state lists with
      | nil =>
          cases hlists
          exact ⟨.nil state, hinv, fun _ _ => rfl, fun _ _ hwait => hwait⟩
      | cons dependent queue ihqueue =>
          obtain ⟨hparent, hparents⟩ := List.forall_mem_cons.mp hparents
          obtain ⟨hwait, hwaits⟩ := List.forall_mem_cons.mp hwaits
          obtain ⟨hhere, hintact⟩ := List.forall_mem_cons.mp hintact
          obtain ⟨hfresh, hnodup⟩ := List.nodup_cons.mp hnodup
          rw [List.mapM_cons] at hlists
          obtain ⟨_, hfirst, hlists⟩ := Option.bind_eq_some_iff.mp hlists
          obtain ⟨rest, hrest, hlists⟩ := Option.bind_eq_some_iff.mp hlists
          obtain ⟨found, hfound, rfl⟩ := Option.map_eq_some_iff.mp hfirst
          cases hlists
          obtain ⟨marked, hmark⟩ := hforest.mark_some state key dependent hinv hwait
          have hmarked := hforest.mark_inv _ _ _ _ hinv hmark
          have hother : ∀ other, other ≠ key → dependents marked other = dependents state other :=
            fun other hne => hforest.mark_dependents _ _ _ _ hinv hmark other (by
              rw [hparent]
              exact fun hsame => hne (Option.some.inj hsame).symm)
          have hnotKey : ∀ {a other}, parent a = some key → Under parent other a → other ≠ key := by
            rintro a other ha hunder rfl
            exact Under.not_under_parent hgrounded ha hunder
          have hswept := ih hmarked (fun other hunder =>
            (hother other (hnotKey hparent hunder)).trans (hhere other hunder)) hfound
          have hapart : ∀ other ∈ queue, other ≠ dependent := by
            rintro other hmem rfl
            exact hfresh hmem
          have hsibling : ∀ a ∈ queue, ∀ other, Under parent other a → ¬ Under parent other dependent :=
            fun a hmem other hunder =>
              Under.not_sibling hgrounded (hparents a hmem) hparent (hapart a hmem) hunder
          have hlast := ihqueue hswept.inv_after rest hrest hparents
            (fun a hmem => hswept.waits_kept a (hsibling a hmem a Relation.ReflTransGen.refl)
              (hforest.mark_waits _ _ _ _ hinv hmark a (hapart a hmem) (hwaits a hmem)))
            hnodup (fun a hmem other hunder =>
              (hswept.kept other (hsibling a hmem other hunder)).trans
                ((hother other (hnotKey (hparents a hmem) hunder)).trans (hintact a hmem other hunder)))
          have hout : ∀ {other}, ¬ Under parent other key → ¬ Under parent other dependent :=
            fun hnot hunder => hnot (hunder.tail hparent)
          rw [List.foldl_cons, round, hmark, List.flatten_cons]
          refine ⟨.cons hmark (hswept.marked.append hlast.marked), hlast.inv_after, ?_, ?_⟩
          · intro other hnot
            have hne : other ≠ key := by
              rintro rfl
              exact hnot Relation.ReflTransGen.refl
            exact (hlast.kept other hnot).trans ((hswept.kept other (hout hnot)).trans (hother other hne))
          · intro other hnot hwait
            have hne : other ≠ dependent := by
              rintro rfl
              exact hnot (Relation.ReflTransGen.single hparent)
            exact hlast.waits_kept other hnot (hswept.waits_kept other (hout hnot)
              (hforest.mark_waits _ _ _ _ hinv hmark other hne hwait))

end Order

end ShortReel.DependencySweep
