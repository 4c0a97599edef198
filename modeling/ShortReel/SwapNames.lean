import ShortReel.SwapDirs

/-!
# Names of swap directories

What is read from the name of a swap directory is the name of the project that it was made for.
-/

namespace ShortReel.SwapNames

open NameOrder SwapDirs

/-- `uuid4().hex`. -/
structure IsSuffix (suffix : Name) : Prop where
  length : suffix.length = suffixLength
  chars : suffix.all isSuffixChar = true

/-- `PROJECT_NAME_PATTERN`. -/
structure IsProjectName (name : Name) : Prop where
  nonempty : name ≠ []
  chars : ∀ c ∈ name, c.isAlphanum ∨ c = '-'

section Parts

variable {separator rest name head suffix : Name}

theorem rpartition_some (h : rpartition separator name = some (head, suffix)) :
    name = head ++ separator ++ suffix := by
  induction name generalizing head with
  | nil => cases h
  | cons c name ih =>
      unfold rpartition at h
      cases hrest : rpartition separator name with
      | some parts =>
          obtain ⟨front, back⟩ := parts
          rw [hrest] at h
          cases h
          rw [ih hrest]
          rfl
      | none =>
          rw [hrest] at h
          dsimp only at h
          by_cases hstarts : separator.isPrefixOf (c :: name) = true
          · rw [if_pos hstarts] at h
            cases h
            exact (List.prefix_iff_eq_append.mp (List.isPrefixOf_iff_prefix.mp hstarts)).symm
          · rw [if_neg hstarts] at h
            cases h

theorem rpartition_none (h : '.' ∉ name) : rpartition ('.' :: rest) name = none := by
  induction name with
  | nil => rfl
  | cons c name ih =>
      have hne : ¬ ('.' :: rest).isPrefixOf (c :: name) = true := by
        intro hstarts
        obtain ⟨back, hback⟩ := List.isPrefixOf_iff_prefix.mp hstarts
        exact h (List.mem_cons.mpr (.inl (List.cons.inj hback).1))
      unfold rpartition
      rw [ih fun hmem => h (List.mem_cons_of_mem _ hmem)]
      exact if_neg hne

theorem rpartition_append (hrest : '.' ∉ rest) (hsuffix : '.' ∉ suffix) (head : Name) :
    rpartition ('.' :: rest) (head ++ '.' :: rest ++ suffix) = some (head, suffix) := by
  induction head with
  | nil =>
      have hnone : rpartition ('.' :: rest) (rest ++ suffix) = none :=
        rpartition_none fun hmem => (List.mem_append.mp hmem).elim hrest hsuffix
      rw [List.nil_append, List.cons_append, rpartition, hnone]
      have hstarts : ('.' :: rest).isPrefixOf ('.' :: (rest ++ suffix)) = true :=
        List.isPrefixOf_iff_prefix.mpr ⟨suffix, rfl⟩
      dsimp only
      rw [if_pos hstarts, List.length_cons, List.drop_succ_cons, List.drop_left]
  | cons c head ih =>
      rw [List.cons_append, List.cons_append, rpartition, ih]

end Parts

section Names

variable {name suffix dir : Name}

theorem IsSuffix.no_dot (h : IsSuffix suffix) : '.' ∉ suffix := by
  intro hmem
  have hchar := List.all_eq_true.mp h.chars _ hmem
  exact absurd hchar (by decide)

theorem IsProjectName.not_mem {c : Char} (h : IsProjectName name)
    (hc : (c.isAlphanum || c = '-') = false) : c ∉ name := by
  intro hmem
  rcases h.chars c hmem with halnum | hdash
  · rw [halnum] at hc
    cases hc
  · rw [hdash] at hc
    cases hc

theorem projectNameFromSwapDir_append {rest : Name} (hname : IsProjectName name)
    (hsuffix : IsSuffix suffix) (hrest : '.' ∉ rest) :
    projectNameFromSwapDir ('.' :: (name ++ '.' :: rest ++ suffix)) ('.' :: rest) = some name := by
  have hparts := rpartition_append hrest hsuffix.no_dot ('.' :: name)
  have hdot : '.' ∉ name := hname.not_mem (by decide)
  have hplain : ¬ (name = [] ∨ name = ['.'] ∨ name = ['.', '.'] ∨ '/' ∈ name ∨ '\\' ∈ name) := by
    rintro (hnil | hone | htwo | hslash | hback)
    · exact hname.nonempty hnil
    · exact hdot (hone ▸ List.mem_cons_self)
    · exact hdot (htwo ▸ List.mem_cons_self)
    · exact hname.not_mem (by decide) hslash
    · exact hname.not_mem (by decide) hback
  have hgood : ¬ (suffix.length ≠ suffixLength ∨ ¬ suffix.all isSuffixChar) := by
    rintro (hlength | hchars)
    · exact hlength hsuffix.length
    · exact hchars hsuffix.chars
  unfold projectNameFromSwapDir
  rw [List.head?_cons, if_neg (not_not_intro rfl)]
  rw [List.cons_append, List.cons_append] at hparts
  rw [hparts]
  dsimp only
  rw [if_neg hgood, List.tail_cons, if_neg hplain]

theorem projectNameFromSwapDir_some {separator : Name}
    (h : projectNameFromSwapDir dir separator = some name) :
    ∃ suffix, IsSuffix suffix ∧ dir = '.' :: (name ++ separator ++ suffix) ∧ name ≠ [] := by
  unfold projectNameFromSwapDir at h
  by_cases hdot : dir.head? ≠ some '.'
  · rw [if_pos hdot] at h
    cases h
  · rw [if_neg hdot] at h
    cases hparts : rpartition separator dir with
    | none =>
        rw [hparts] at h
        cases h
    | some parts =>
        obtain ⟨head, suffix⟩ := parts
        rw [hparts] at h
        dsimp only at h
        by_cases hbad : suffix.length ≠ suffixLength ∨ ¬ suffix.all isSuffixChar
        · rw [if_pos hbad] at h
          cases h
        · rw [if_neg hbad] at h
          by_cases hplain : head.tail = [] ∨ head.tail = ['.'] ∨ head.tail = ['.', '.'] ∨
              '/' ∈ head.tail ∨ '\\' ∈ head.tail
          · rw [if_pos hplain] at h
            cases h
          · rw [if_neg hplain] at h
            obtain rfl := Option.some.inj h
            have hdir := rpartition_some hparts
            have hnil : head.tail ≠ [] := fun heq => hplain (.inl heq)
            refine ⟨suffix, ⟨not_not.mp fun hne => hbad (.inl hne),
              not_not.mp fun hne => hbad (.inr hne)⟩, ?_, hnil⟩
            cases head with
            | nil => exact absurd rfl hnil
            | cons c head =>
                rw [hdir] at hdot ⊢
                have hc : c = '.' := Option.some.inj (not_not.mp hdot)
                rw [hc]
                rfl

theorem rollbackProjectName_newRollbackDir (hname : IsProjectName name) (hsuffix : IsSuffix suffix) :
    rollbackProjectName (newRollbackDir name suffix) = some name :=
  projectNameFromSwapDir_append hname hsuffix (by decide)

theorem eq_newRollbackDir (h : rollbackProjectName dir = some name) :
    ∃ suffix, IsSuffix suffix ∧ dir = newRollbackDir name suffix := by
  obtain ⟨suffix, hsuffix, hdir, -⟩ := projectNameFromSwapDir_some h
  exact ⟨suffix, hsuffix, hdir⟩

theorem rollbackProjectName_newStagingDir (hsuffix : IsSuffix suffix) :
    rollbackProjectName (newStagingDir name suffix) = none := by
  cases hrollback : rollbackProjectName (newStagingDir name suffix) with
  | none => rfl
  | some other =>
      obtain ⟨suffix', hsuffix', hdir⟩ := eq_newRollbackDir hrollback
      have hinner := (List.cons.inj hdir).2
      have hlength : suffix.length = suffix'.length := hsuffix.length.trans hsuffix'.length.symm
      have hfront : name ++ stagingInfix = other ++ rollbackInfix :=
        (List.append_inj' hinner hlength).1
      have hends : stagingInfix = ['a', 'c', 'k', '-'] := by
        have hsplit : other ++ rollbackInfix =
            (other ++ ['.', 'v', '6', '-', 'r', 'o', 'l', 'l', 'b']) ++ ['a', 'c', 'k', '-'] := by
          rw [List.append_assoc]
          rfl
        exact (List.append_inj' (hfront.trans hsplit) rfl).2
      exact absurd hends (by decide)

theorem stagingProjectName_newStagingDir (hname : IsProjectName name) (hsuffix : IsSuffix suffix) :
    stagingProjectName (newStagingDir name suffix) = some name := by
  unfold stagingProjectName
  rw [rollbackProjectName_newStagingDir hsuffix, if_neg (by decide)]
  exact projectNameFromSwapDir_append hname hsuffix (by decide)

/-- A directory is read as a swap directory of a project exactly when it has been named as one. -/
theorem swapDir_iff (hname : IsProjectName name) (dir : Name) :
    (stagingProjectName dir = some name ↔
        ∃ suffix, IsSuffix suffix ∧ dir = newStagingDir name suffix) ∧
      (rollbackProjectName dir = some name ↔
        ∃ suffix, IsSuffix suffix ∧ dir = newRollbackDir name suffix) ∧
      (stagingProjectName dir = none ∨ rollbackProjectName dir = none) := by
  refine ⟨⟨fun h => ?_, ?_⟩, ⟨eq_newRollbackDir, ?_⟩, ?_⟩
  · unfold stagingProjectName at h
    split_ifs at h
    obtain ⟨suffix, hsuffix, hdir, -⟩ := projectNameFromSwapDir_some h
    exact ⟨suffix, hsuffix, hdir⟩
  · rintro ⟨suffix, hsuffix, rfl⟩
    exact stagingProjectName_newStagingDir hname hsuffix
  · rintro ⟨suffix, hsuffix, rfl⟩
    exact rollbackProjectName_newRollbackDir hname hsuffix
  · cases hrollback : rollbackProjectName dir with
    | none => exact .inr rfl
    | some other => exact .inl (if_pos (by rw [hrollback]; rfl))

theorem swapDir_iff_demo : stagingProjectName
    (newStagingDir ['d', 'e', 'm', 'o'] (List.replicate 32 '0')) = some ['d', 'e', 'm', 'o'] :=
  (swapDir_iff ⟨by decide, by simp⟩ _).1.mpr ⟨_, ⟨by decide, by decide⟩, rfl⟩

end Names

end ShortReel.SwapNames
