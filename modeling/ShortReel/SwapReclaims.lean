import ShortReel.StagedSwap
import ShortReel.SwapNames

/-!
# Reclaims of swap directories

Which rollback directory is claimed for a project that is not there, and what stays as it is.
-/

namespace ShortReel.SwapReclaims

open InsertionDict NameOrder SwapDirs SwapNames StagedSwap

variable {τ : Type} {parent start : Parent τ} {project name : Name}

theorem replace_some {source target : Name} {replaced : Parent τ}
    (h : parent.replace source target = some replaced) :
    ∃ entry, get parent source = some entry ∧ get parent target = none ∧
      ∀ name, get replaced name = if name = target then some entry
        else if name = source then none else get parent name := by
  unfold Parent.replace at h
  cases hsource : get parent source with
  | none =>
      rw [hsource] at h
      cases h
  | some entry =>
      cases htarget : get parent target with
      | some other =>
          rw [hsource, htarget] at h
          cases h
      | none =>
          rw [hsource, htarget] at h
          cases h
          exact ⟨entry, rfl, rfl, fun name => by rw [get_put, get_remove]⟩

theorem replace_eq_some {source target : Name} {entry : Entry τ}
    (hsource : get parent source = some entry) (htarget : get parent target = none) :
    parent.replace source target = some (put (remove parent source) target entry) := by
  unfold Parent.replace
  rw [hsource, htarget]

theorem nodup_replace {source target : Name} {replaced : Parent τ} (hkeys : (keys parent).Nodup)
    (h : parent.replace source target = some replaced) : (keys replaced).Nodup := by
  unfold Parent.replace at h
  split at h
  · cases h
    exact nodup_put (nodup_remove hkeys)
  · cases h

theorem get_rework_ne {other : Name} {mtime : ℕ} {tree : τ} (hne : other ≠ name) :
    get (parent.rework name mtime tree) other = get parent other := by
  unfold Parent.rework
  split
  · exact get_put_ne hne
  · rfl

theorem get_rework_self {mtime mtime' : ℕ} {tree tree' : τ}
    (h : get parent name = some (.dir mtime' tree')) :
    get (parent.rework name mtime tree) name = some (.dir mtime tree) := by
  unfold Parent.rework
  rw [h]
  exact get_put_self

theorem nodup_rework {mtime : ℕ} {tree : τ} (hkeys : (keys parent).Nodup) :
    (keys (parent.rework name mtime tree)).Nodup := by
  unfold Parent.rework
  split
  · exact nodup_put hkeys
  · exact hkeys

theorem get_rmtree_ne {other : Name} (hne : other ≠ name) :
    get (parent.rmtree name) other = get parent other := by
  unfold Parent.rmtree
  split
  · exact get_remove_ne hne
  · rfl

theorem nodup_rmtree (hkeys : (keys parent).Nodup) : (keys (parent.rmtree name)).Nodup := by
  unfold Parent.rmtree
  split
  · exact nodup_remove hkeys
  · exact hkeys

theorem mem_candidateDirs (hkeys : (keys parent).Nodup) {item : Name × ℕ} :
    item ∈ parent.candidateDirs ↔
      item.1.head? = some '.' ∧ ∃ tree, get parent item.1 = some (.dir item.2 tree) := by
  unfold Parent.candidateDirs
  rw [List.mem_filterMap]
  constructor
  · rintro ⟨⟨dir, entry⟩, hmem, hitem⟩
    have hget := get_eq_some_of_mem hkeys ((List.mem_insertionSort _).mp hmem)
    cases entry with
    | dir mtime tree =>
        dsimp only at hitem
        split_ifs at hitem with hdot
        cases hitem
        exact ⟨hdot, tree, hget⟩
    | link target => cases hitem
    | file => cases hitem
  · rintro ⟨hdot, tree, hget⟩
    refine ⟨(item.1, .dir item.2 tree), (List.mem_insertionSort _).mpr (mem_of_get hget), ?_⟩
    exact if_pos hdot

theorem pairwise_candidateDirs {R : Name → Name → Prop}
    (h : (parent.insertionSort fun a b => atMost a.1 b.1).Pairwise fun a b => R a.1 b.1) :
    parent.candidateDirs.Pairwise fun a b => R a.1 b.1 := by
  refine List.pairwise_filterMap.mpr (h.imp fun {a b} hrelated item hitem other hother => ?_)
  obtain ⟨first, entry⟩ := a
  obtain ⟨second, twin⟩ := b
  cases entry with
  | link target => cases hitem
  | file => cases hitem
  | dir mtime tree =>
      dsimp only at hitem
      split_ifs at hitem
      cases hitem
      cases twin with
      | link target => cases hother
      | file => cases hother
      | dir mtime tree =>
          dsimp only at hother
          split_ifs at hother
          cases hother
          exact hrelated

theorem mem_candidates (hkeys : (keys parent).Nodup) {candidate : Candidate} :
    candidate ∈ candidates parent ↔ rollbackProjectName candidate.rollback = some candidate.project ∧
      ∃ tree, get parent candidate.rollback = some (.dir candidate.mtime tree) := by
  unfold candidates
  rw [List.mem_filterMap]
  constructor
  · rintro ⟨item, hmem, hitem⟩
    obtain ⟨project, hproject, rfl⟩ := Option.map_eq_some_iff.mp hitem
    exact ⟨hproject, ((mem_candidateDirs hkeys).mp hmem).2⟩
  · rintro ⟨hproject, htree⟩
    have hdot : candidate.rollback.head? = some '.' := by
      obtain ⟨suffix, -, hdir⟩ := eq_newRollbackDir hproject
      rw [hdir]
      rfl
    refine ⟨(candidate.rollback, candidate.mtime), (mem_candidateDirs hkeys).mpr ⟨hdot, htree⟩, ?_⟩
    rw [hproject]
    rfl

theorem pairwise_candidates {R : Name → Name → Prop}
    (h : (parent.insertionSort fun a b => atMost a.1 b.1).Pairwise fun a b => R a.1 b.1) :
    (candidates parent).Pairwise fun a b => R a.rollback b.rollback := by
  refine List.pairwise_filterMap.mpr ((pairwise_candidateDirs h).imp
    fun {a b} hrelated first hfirst second hsecond => ?_)
  obtain ⟨project, -, rfl⟩ := Option.map_eq_some_iff.mp hfirst
  obtain ⟨other, -, rfl⟩ := Option.map_eq_some_iff.mp hsecond
  exact hrelated

theorem sorted_candidates (parent : Parent τ) :
    (candidates parent).Pairwise fun a b => atMost a.rollback b.rollback = true := by
  have htotal : Std.Total fun a b : Name × Entry τ => atMost a.1 b.1 = true :=
    ⟨fun a b => atMost_total a.1 b.1⟩
  have htrans : IsTrans (Name × Entry τ) fun a b => atMost a.1 b.1 = true :=
    ⟨fun _ _ _ h h' => atMost_trans h h'⟩
  have hsorted := List.pairwise_insertionSort (fun a b : Name × Entry τ => atMost a.1 b.1 = true) parent
  exact @pairwise_candidates τ parent (fun a b => atMost a b = true) hsorted

theorem nodup_candidates (hkeys : (keys parent).Nodup) :
    ((candidates parent).map Candidate.rollback).Nodup := by
  refine List.pairwise_map.mpr (pairwise_candidates ?_)
  have hperm := (List.perm_insertionSort (fun a b : Name × Entry τ => atMost a.1 b.1) parent).map Prod.fst
  exact List.pairwise_map.mp (hperm.nodup_iff.mpr hkeys)

def Ahead (first second : Candidate) : Prop :=
  Before Candidate.mtime (fun a b => atMost a.rollback b.rollback = true) first second

theorem Ahead.antisymm {first second : Candidate} (h : Ahead first second) (h' : Ahead second first) :
    first.rollback = second.rollback := by
  rcases h with hlt | ⟨heq, hname⟩
  · rcases h' with hlt' | ⟨heq', -⟩
    · exact absurd hlt (Nat.lt_asymm hlt')
    · exact absurd heq'.symm hlt.ne
  · rcases h' with hlt' | ⟨-, hname'⟩
    · exact absurd heq.symm hlt'.ne
    · exact atMost_antisymm hname hname'

def firstCandidate (parent : Parent τ) (project : Name) : Option Candidate :=
  (byRank Candidate.mtime (candidates parent)).find? fun candidate => candidate.project = project

theorem mem_of_firstCandidate {candidate : Candidate}
    (h : firstCandidate parent project = some candidate) :
    candidate ∈ candidates parent ∧ candidate.project = project ∧
      ∀ other ∈ candidates parent, other.project = project →
        other = candidate ∨ Ahead candidate other := by
  obtain ⟨hproject, front, back, hsplit, hfront⟩ := List.find?_eq_some_iff_append.mp h
  have hsorted : (byRank Candidate.mtime (candidates parent)).Pairwise Ahead :=
    pairwise_byRank (sorted_candidates parent)
  rw [hsplit] at hsorted
  have hmem : ∀ other, other ∈ candidates parent ↔ other ∈ front ++ candidate :: back :=
    fun other => by rw [← hsplit, mem_byRank]
  refine ⟨(hmem candidate).mpr (List.mem_append_right _ List.mem_cons_self),
    of_decide_eq_true hproject, fun other hother hsame => ?_⟩
  rcases List.mem_append.mp ((hmem other).mp hother) with hleft | hright
  · have hnot := hfront other hleft
    rw [decide_eq_true hsame] at hnot
    cases hnot
  · rcases List.mem_cons.mp hright with heq | hback
    · exact .inl heq
    · exact .inr ((List.pairwise_cons.mp (List.pairwise_append.mp hsorted).2.1).1 other hback)

theorem firstCandidate_none (h : firstCandidate parent project = none) :
    ∀ candidate ∈ candidates parent, candidate.project ≠ project := by
  intro candidate hmem heq
  have hnot := List.find?_eq_none.mp h candidate (mem_byRank.mpr hmem)
  exact hnot (decide_eq_true heq)

theorem firstCandidate_eq (hkeys : (keys parent).Nodup) {candidate : Candidate}
    (hmem : candidate ∈ candidates parent) (hproject : candidate.project = project)
    (hahead : ∀ other ∈ candidates parent, other.project = project →
      other.rollback = candidate.rollback ∨ Ahead candidate other) :
    firstCandidate parent project = some candidate := by
  cases hfirst : firstCandidate parent project with
  | none => exact absurd hproject (firstCandidate_none hfirst candidate hmem)
  | some first =>
      obtain ⟨hin, hof, hbefore⟩ := mem_of_firstCandidate hfirst
      have hsame : first.rollback = candidate.rollback := by
        rcases hahead first hin hof with heq | hahead'
        · exact heq
        · rcases hbefore candidate hmem hproject with heq | hahead''
          · rw [heq]
          · exact hahead''.antisymm hahead'
      exact congrArg some (List.inj_on_of_nodup_map (nodup_candidates hkeys) hin hmem hsame)

section Claims

variable {rest : List Candidate} {attempted : List Name}

theorem get_reclaimEach_there (hproject : ∀ candidate ∈ rest, candidate.rollback ≠ project)
    (h : project ∈ attempted ∨ parent.isThere project = true) :
    get (reclaimEach rest attempted parent) project = get parent project := by
  induction rest generalizing attempted parent with
  | nil => rfl
  | cons candidate rest ih =>
      obtain ⟨hne, hrest⟩ := List.forall_mem_cons.mp hproject
      have hstill : project ∈ candidate.project :: attempted ∨ parent.isThere project = true :=
        h.imp_left (List.mem_cons_of_mem _)
      unfold reclaimEach
      split_ifs with hattempted hthere
      · exact ih hrest h
      · exact ih hrest hstill
      · cases hreplace : parent.replace candidate.rollback candidate.project with
        | none => exact ih hrest hstill
        | some claimed =>
            obtain ⟨entry, -, -, hget⟩ := replace_some hreplace
            have hother : project ≠ candidate.project := by
              rintro rfl
              exact h.elim hattempted hthere
            have hsame : get claimed project = get parent project := by
              rw [hget, if_neg hother, if_neg hne.symm]
            have hstill' : project ∈ candidate.project :: attempted ∨ claimed.isThere project = true := by
              unfold Parent.isThere at hstill ⊢
              rwa [hsame]
            exact (ih hrest hstill').trans hsame

theorem get_reclaimEach_absent
    (hrollback : ∀ candidate ∈ rest, rollbackProjectName candidate.rollback = some candidate.project)
    (hproject : ∀ candidate ∈ rest, candidate.rollback ≠ project)
    (hthere : ∀ candidate ∈ rest, candidate.project = project →
      get parent candidate.rollback ≠ none)
    (hnot : project ∉ attempted) (habsent : get parent project = none) :
    get (reclaimEach rest attempted parent) project =
      (rest.find? fun candidate => candidate.project = project).bind fun candidate =>
        get parent candidate.rollback := by
  induction rest generalizing attempted parent with
  | nil => exact habsent
  | cons candidate rest ih =>
      obtain ⟨hof, hrollback'⟩ := List.forall_mem_cons.mp hrollback
      obtain ⟨hne, hproject'⟩ := List.forall_mem_cons.mp hproject
      obtain ⟨hhere, hthere'⟩ := List.forall_mem_cons.mp hthere
      rw [List.find?_cons]
      unfold reclaimEach
      by_cases hmine : candidate.project = project
      · have hgone : ¬ parent.isThere project = true := by
          unfold Parent.isThere
          rw [habsent]
          exact Bool.false_ne_true
        rw [decide_eq_true hmine, hmine, if_neg hnot, if_neg hgone]
        obtain ⟨entry, hentry⟩ := Option.ne_none_iff_exists'.mp (hhere hmine)
        rw [replace_eq_some hentry habsent]
        dsimp only
        rw [get_reclaimEach_there hproject' (.inl List.mem_cons_self), get_put_self]
        exact hentry.symm
      · rw [decide_eq_false hmine]
        have hnot' : project ∉ candidate.project :: attempted := fun hmem =>
          (List.mem_cons.mp hmem).elim (fun heq => hmine heq.symm) hnot
        split_ifs with hattempted hfound
        · exact ih hrollback' hproject' hthere' hnot habsent
        · exact ih hrollback' hproject' hthere' hnot' habsent
        · cases hreplace : parent.replace candidate.rollback candidate.project with
          | none => exact ih hrollback' hproject' hthere' hnot' habsent
          | some claimed =>
              obtain ⟨entry, -, htarget, hget⟩ := replace_some hreplace
              have hkept : ∀ other ∈ rest, other.project = project →
                  get claimed other.rollback = get parent other.rollback := by
                intro other hother hsame
                have hsource : other.rollback ≠ candidate.rollback := by
                  intro heq
                  have hprojects := (hrollback' other hother).symm.trans (heq ▸ hof)
                  exact hmine ((Option.some.inj hprojects).symm.trans hsame)
                have htarget' : other.rollback ≠ candidate.project :=
                  fun heq => hthere' other hother hsame (heq ▸ htarget)
                rw [hget, if_neg htarget', if_neg hsource]
              have habsent' : get claimed project = none := by
                rw [hget, if_neg (Ne.symm hmine), if_neg hne.symm]
                exact habsent
              refine (ih hrollback' hproject' (fun other hother hsame => ?_) hnot' habsent').trans ?_
              · rw [hkept other hother hsame]
                exact hthere' other hother hsame
              · cases hfind : rest.find? fun candidate => candidate.project = project with
                | none => rfl
                | some found =>
                    have hfound := (List.find?_eq_some_iff_append.mp hfind).1
                    exact hkept found (List.mem_of_find?_eq_some hfind) (of_decide_eq_true hfound)

theorem rollback_ne (hproject : IsProjectName project) {candidate : Candidate}
    (h : rollbackProjectName candidate.rollback = some candidate.project) :
    candidate.rollback ≠ project := by
  rintro rfl
  obtain ⟨suffix, -, hdir⟩ := eq_newRollbackDir h
  refine hproject.not_mem (by decide) (?_ : '.' ∈ candidate.rollback)
  rw [hdir]
  exact List.mem_cons_self

theorem get_reclaim_there (hkeys : (keys parent).Nodup) (hproject : IsProjectName project)
    (h : parent.isThere project = true) :
    get (reclaimInterruptedSwaps parent) project = get parent project :=
  get_reclaimEach_there (fun _ hmem => rollback_ne hproject
    ((mem_candidates hkeys).mp (mem_byRank.mp hmem)).1) (.inr h)

theorem get_reclaim_absent (hkeys : (keys parent).Nodup) (hproject : IsProjectName project)
    (h : get parent project = none) :
    get (reclaimInterruptedSwaps parent) project =
      (firstCandidate parent project).bind fun candidate => get parent candidate.rollback := by
  have hmem : ∀ candidate ∈ byRank Candidate.mtime (candidates parent), _ :=
    fun candidate hcandidate => (mem_candidates hkeys).mp (mem_byRank.mp hcandidate)
  refine get_reclaimEach_absent (fun candidate hcandidate => (hmem candidate hcandidate).1)
    (fun candidate hcandidate => rollback_ne hproject (hmem candidate hcandidate).1)
    (fun candidate hcandidate _ => ?_) List.not_mem_nil h
  obtain ⟨tree, htree⟩ := (hmem candidate hcandidate).2
  rw [htree]
  exact Option.some_ne_none _

theorem nodup_reclaimEach (hkeys : (keys parent).Nodup) :
    (keys (reclaimEach rest attempted parent)).Nodup := by
  induction rest generalizing attempted parent with
  | nil => exact hkeys
  | cons candidate rest ih =>
      unfold reclaimEach
      split_ifs
      · exact ih hkeys
      · exact ih hkeys
      · cases hreplace : parent.replace candidate.rollback candidate.project with
        | none => exact ih hkeys
        | some claimed => exact ih (nodup_replace hkeys hreplace)

theorem nodup_reclaim (hkeys : (keys parent).Nodup) : (keys (reclaimInterruptedSwaps parent)).Nodup :=
  nodup_reclaimEach hkeys

theorem reclaimEach_own
    (hrollback : ∀ candidate ∈ rest, rollbackProjectName candidate.rollback = some candidate.project ∧
      get parent candidate.rollback = get start candidate.rollback ∧
      get parent candidate.rollback ≠ none)
    (hnodup : (rest.map Candidate.rollback).Nodup)
    (hown : ∀ name entry, get parent name = some entry → get start name = some entry ∨
      ∃ dir, rollbackProjectName dir = some name ∧ get start dir = some entry)
    {entry : Entry τ} (h : get (reclaimEach rest attempted parent) name = some entry) :
    get start name = some entry ∨
      ∃ dir, rollbackProjectName dir = some name ∧ get start dir = some entry := by
  induction rest generalizing attempted parent with
  | nil => exact hown name entry h
  | cons candidate rest ih =>
      obtain ⟨⟨hof, hsame, hhere⟩, hrest⟩ := List.forall_mem_cons.mp hrollback
      obtain ⟨hfresh, hnodup'⟩ := List.nodup_cons.mp hnodup
      unfold reclaimEach at h
      split_ifs at h
      · exact ih hrest hnodup' hown h
      · exact ih hrest hnodup' hown h
      · cases hreplace : parent.replace candidate.rollback candidate.project with
        | none =>
            rw [hreplace] at h
            exact ih hrest hnodup' hown h
        | some claimed =>
            rw [hreplace] at h
            obtain ⟨moved, hmoved, htarget, hget⟩ := replace_some hreplace
            refine ih (fun other hother => ?_) hnodup' (fun name' entry' hentry => ?_) h
            · obtain ⟨hof', hsame', hhere'⟩ := hrest other hother
              have hsource : other.rollback ≠ candidate.rollback :=
                fun heq => hfresh (heq ▸ List.mem_map_of_mem hother)
              have htarget' : other.rollback ≠ candidate.project :=
                fun heq => hhere' (heq ▸ htarget)
              rw [hget, if_neg htarget', if_neg hsource]
              exact ⟨hof', hsame', hhere'⟩
            · rw [hget] at hentry
              split_ifs at hentry with hname
              · cases hentry
                exact .inr ⟨candidate.rollback, hname ▸ hof, hsame ▸ hmoved⟩
              · exact hown name' entry' hentry

theorem reclaim_own (hkeys : (keys parent).Nodup) {entry : Entry τ}
    (h : get (reclaimInterruptedSwaps parent) name = some entry) :
    get parent name = some entry ∨
      ∃ suffix, IsSuffix suffix ∧ get parent (newRollbackDir name suffix) = some entry := by
  have hnodup : ((byRank Candidate.mtime (candidates parent)).map Candidate.rollback).Nodup :=
    ((List.perm_insertionSort _ _).map _).nodup_iff.mpr (nodup_candidates hkeys)
  have hclaimed := reclaimEach_own (fun candidate hcandidate => ?_) hnodup
    (fun name entry hentry => .inl hentry) h
  · rcases hclaimed with hbefore | ⟨dir, hof, hdir⟩
    · exact .inl hbefore
    · obtain ⟨suffix, hsuffix, rfl⟩ := eq_newRollbackDir hof
      exact .inr ⟨suffix, hsuffix, hdir⟩
  · obtain ⟨hof, tree, htree⟩ := (mem_candidates hkeys).mp (mem_byRank.mp hcandidate)
    refine ⟨hof, rfl, ?_⟩
    rw [htree]
    exact Option.some_ne_none _

end Claims

theorem get_foldl {items : List (Name × ℕ)} {f : Parent τ → Name × ℕ → Parent τ}
    (h : ∀ item ∈ items, ∀ parent, get (f parent item) project = get parent project) :
    get (items.foldl f parent) project = get parent project := by
  induction items generalizing parent with
  | nil => rfl
  | cons item items ih =>
      obtain ⟨hitem, hitems⟩ := List.forall_mem_cons.mp h
      rw [List.foldl_cons, ih hitems, hitem]

theorem get_cleanup (hkeys : (keys parent).Nodup) (hproject : IsProjectName project) (cutoff : ℕ)
    (left : Name → Option (ℕ × τ)) :
    get (cleanupCompletedSwapDirs cutoff left parent) project = get parent project := by
  refine get_foldl fun item hmem parent' => ?_
  have hne : project ≠ item.1 := by
    rintro rfl
    have hdot := ((mem_candidateDirs hkeys).mp hmem).1
    exact hproject.not_mem (by decide) (List.mem_of_mem_head? hdot)
  cases swapProjectName item.1 with
  | none => rfl
  | some other =>
      dsimp only
      split_ifs
      · rfl
      · cases left item.1 with
        | none => exact get_rmtree_ne hne
        | some rest => exact get_rework_ne hne

end ShortReel.SwapReclaims
