import ShortReel.TimelineHistories

/-!
# What revisions record of their changes

The clips a revision does not record as changed stand in the same order as in the revision before
it: by the frame of a batch for edits, and by the common subsequence of the difference for
restored and for older revisions.
-/

namespace ShortReel.TimelineChanges

open TimelineModel TimelineOperations TimelineService TimelineTrack TimelineFrame TimelineSteps
open TimelineDocuments TimelineHistories

section Subsequences

variable {α : Type} [DecidableEq α]

theorem backtrack_sublist (table : List (List ℕ)) (fuel : ℕ) (left right : List α) :
    (backtrack table fuel left right).Sublist left ∧
      (backtrack table fuel left right).Sublist right := by
  induction fuel generalizing left right with
  | zero => simp [backtrack]
  | succ fuel ih =>
      cases left with
      | nil => simp [backtrack]
      | cons a left =>
          cases right with
          | nil => simp [backtrack]
          | cons b right =>
              rw [backtrack]
              split
              · rename_i hab
                subst hab
                exact ⟨(ih left right).1.cons_cons a, (ih left right).2.cons_cons a⟩
              · split
                · exact ⟨(ih left (b :: right)).1.cons a, (ih left (b :: right)).2⟩
                · exact ⟨(ih (a :: left) right).1, (ih (a :: left) right).2.cons b⟩

theorem filter_mem_sublist {kept items : List α} (h : kept.Sublist items) (hnodup : items.Nodup) :
    items.filter (· ∈ kept) = kept := by
  have hkept : kept.Sublist (items.filter (· ∈ kept)) := by
    have hfiltered := h.filter (· ∈ kept)
    rwa [List.filter_eq_self.mpr (by simp)] at hfiltered
  have hsubset : items.filter (· ∈ kept) ⊆ kept := fun x hx => by
    simpa using (List.mem_filter.mp hx).2
  exact (hkept.eq_of_length_le (List.subperm_of_subset (hnodup.filter _) hsubset).length_le).symm

theorem filter_longestCommonSubsequence {left right : List α} (hleft : left.Nodup)
    (hright : right.Nodup) :
    left.filter (· ∈ longestCommonSubsequence left right) =
      right.filter (· ∈ longestCommonSubsequence left right) := by
  obtain ⟨h₁, h₂⟩ := backtrack_sublist (lengths left right) (left.length + right.length)
    left.reverse right.reverse
  apply List.reverse_injective
  rw [← List.filter_reverse, ← List.filter_reverse]
  exact (filter_mem_sublist h₁ (List.nodup_reverse.mpr hleft)).trans
    (filter_mem_sublist h₂ (List.nodup_reverse.mpr hright)).symm

end Subsequences

def SameOrderOutside (changed : List ClipId) (before after : EditTimelineContent) : Prop :=
  (clipIds before.clips).filter (· ∉ changed) = (clipIds after.clips).filter (· ∉ changed)

theorem SameOrderOutside.mono {changed more : List ClipId} {before after : EditTimelineContent}
    (h : SameOrderOutside changed before after) (hsubset : changed ⊆ more) :
    SameOrderOutside more before after :=
  filter_eq_of_imp (fun id hid => by
    simp only [decide_eq_true_eq] at hid ⊢
    exact fun hmem => hid (hsubset hmem)) h

theorem SameOrderOutside.trans {changed : List ClipId} {first second third : EditTimelineContent}
    (h₁ : SameOrderOutside changed first second) (h₂ : SameOrderOutside changed second third) :
    SameOrderOutside changed first third :=
  Eq.trans h₁ h₂

theorem mem_changed {diff : ContentDiff} {id : ClipId} :
    id ∈ diff.changed ↔ id ∈ diff.added ∨ id ∈ diff.removed ∨ id ∈ diff.modified ∨ id ∈ diff.moved := by
  simp [ContentDiff.changed, or_assoc]

theorem mem_clipIds_of_contentIds {content other : EditTimelineContent} {id : ClipId}
    (hid : id ∈ contentIds content) (hother : id ∈ clipIds other.clips) :
    id ∈ clipIds content.clips := by
  rcases List.mem_append.mp hid with h | h
  · exact h
  · obtain ⟨bgm, -, hbgm⟩ := List.mem_map.mp h
    obtain ⟨clip, -, hclip⟩ := mem_clipIds.mp hother
    exact absurd (hclip.trans hbgm.symm) (EditClip.id_ne_bgm clip bgm)

theorem diffContent_sameOrder (before after : EditTimelineContent) :
    SameOrderOutside (diffContent before after).changed before after := by
  set commonBefore := (clipIds before.clips).filter (· ∈ contentIds after) with hbefore
  set commonAfter := (clipIds after.clips).filter (· ∈ contentIds before) with hafter
  set inOrder := longestCommonSubsequence commonBefore commonAfter with hinOrder
  have hkept : commonBefore.filter (· ∈ inOrder) = commonAfter.filter (· ∈ inOrder) :=
    filter_longestCommonSubsequence (before.unique_clip_ids.filter _) (after.unique_clip_ids.filter _)
  -- An unchanged common clip was kept in order.
  have hinOrder_of : ∀ id, id ∈ clipIds before.clips → id ∈ contentIds after →
      id ∉ (diffContent before after).changed → id ∈ inOrder := by
    intro id hid hcommon hunchanged
    by_contra hmoved
    refine hunchanged (mem_changed.mpr (Or.inr (Or.inr (Or.inr ?_))))
    exact List.mem_filter.mpr
      ⟨List.mem_filter.mpr ⟨hid, by simpa using hcommon⟩, decide_eq_true hmoved⟩
  have hleft : (clipIds before.clips).filter (· ∉ (diffContent before after).changed) =
      (commonBefore.filter (· ∈ inOrder)).filter (· ∉ (diffContent before after).changed) := by
    rw [hbefore, List.filter_filter, List.filter_filter]
    refine List.filter_congr fun id hid => ?_
    by_cases hunchanged : id ∈ (diffContent before after).changed
    · simp [hunchanged]
    · have hcommon : id ∈ contentIds after := by
        by_contra hremoved
        refine hunchanged (mem_changed.mpr (Or.inr (Or.inl ?_)))
        exact List.mem_filter.mpr ⟨List.mem_append_left _ hid, by simpa using hremoved⟩
      simp [hunchanged, hcommon, hinOrder_of id hid hcommon hunchanged]
  have hright : (clipIds after.clips).filter (· ∉ (diffContent before after).changed) =
      (commonAfter.filter (· ∈ inOrder)).filter (· ∉ (diffContent before after).changed) := by
    rw [hafter, List.filter_filter, List.filter_filter]
    refine List.filter_congr fun id hid => ?_
    by_cases hunchanged : id ∈ (diffContent before after).changed
    · simp [hunchanged]
    · have hcommon : id ∈ contentIds before := by
        by_contra hadded
        refine hunchanged (mem_changed.mpr (Or.inl ?_))
        exact List.mem_filter.mpr ⟨List.mem_append_left _ hid, by simpa using hadded⟩
      have hmem := hinOrder_of id (mem_clipIds_of_contentIds hcommon hid)
        (List.mem_append_left _ hid) hunchanged
      simp [hunchanged, hcommon, hmem]
  exact hleft.trans ((congrArg _ hkept).trans hright.symm)

theorem restoreChangedClipIds_sameOrder (before after : EditTimelineContent) :
    SameOrderOutside (restoreChangedClipIds before after) before after := by
  refine (diffContent_sameOrder before after).mono fun id hid => ?_
  unfold restoreChangedClipIds
  dsimp only
  split
  · exact hid
  · exact List.mem_union_iff.mpr (Or.inl hid)

def changedClips (previous revision : TimelineRevision) : List ClipId :=
  revision.changedClipIds.getD (diffContent previous.content revision.content).changed

/-- Every revision keeps the order of the clips it does not count as changed. -/
def Honest : List TimelineRevision → Prop
  | previous :: revision :: rest =>
      SameOrderOutside (changedClips previous revision) previous.content revision.content ∧
        Honest (revision :: rest)
  | _ => True

theorem Honest.drop {revisions : List TimelineRevision} (h : Honest revisions) (count : ℕ) :
    Honest (revisions.drop count) := by
  induction count generalizing revisions with
  | zero => exact h
  | succ count ih =>
      match revisions, h with
      | [], _ => exact trivial
      | [_], _ => simp [Honest]
      | _ :: _ :: _, h => exact ih h.2

/-- Outside what was changed since the first of some revisions, the last one has the same order. -/
theorem Honest.sameOrder {first : TimelineRevision} {rest : List TimelineRevision}
    (h : Honest (first :: rest)) {last : TimelineRevision}
    (hlast : (first :: rest).getLast? = some last) :
    SameOrderOutside (changedSince (first :: rest)) first.content last.content := by
  induction rest generalizing first with
  | nil =>
      cases hlast
      exact rfl
  | cons second rest ih =>
      have hrest := ih h.2 (by simpa using hlast)
      refine (h.1.mono ?_).trans (hrest.mono ?_)
      · exact fun id hid => List.mem_union_iff.mpr (Or.inl hid)
      · exact fun id hid => List.mem_union_iff.mpr (Or.inr hid)

theorem honest_append {revisions : List TimelineRevision} {last revision : TimelineRevision}
    (h : Honest revisions) (hlast : revisions.getLast? = some last)
    (hnew : SameOrderOutside (changedClips last revision) last.content revision.content) :
    Honest (revisions ++ [revision]) := by
  induction revisions with
  | nil => cases hlast
  | cons first rest ih =>
      cases rest with
      | nil =>
          cases hlast
          exact ⟨hnew, trivial⟩
      | cons second rest => exact ⟨h.1, ih h.2 (by simpa using hlast)⟩

theorem applied_sameOrder {content : EditTimelineContent} {nextClipNumber nextBgmNumber : ℕ+}
    {operations : List TimelineOperation} {sources : EpisodeSources} {checkWindows : Bool}
    {applied : AppliedBatch}
    (h : applyOperations content nextClipNumber nextBgmNumber operations sources checkWindows =
      .ok applied) :
    SameOrderOutside applied.lastOperation.keys content applied.content := by
  obtain ⟨batch, accepted⟩ := applyOperations_ok h
  have hframe := accepted.run.frame.clips
  have hkeys : ∀ id : ClipId, id ∉ batch.lastOperation.keys ↔ id ∉ batch.lastOperation :=
    fun _ => Iff.rfl
  unfold SameOrderOutside clipIds
  rw [accepted.clips_eq, accepted.last_eq, List.filter_map, List.filter_map]
  simp only [Function.comp_def, hkeys]
  exact congrArg (List.map (·.id)) hframe.symm

theorem reachable_honest {document : EditTimelineDocument}
    (hreach : timelines.Reachable document) : Honest document.revisions := by
  refine hreach.invariant (fun document => Honest document.revisions) ?_ ?_
  · rintro document ⟨script, input, hcreate⟩
    obtain ⟨content, -, -, -, hrevisions⟩ := createFromScript_ok hcreate
    rw [hrevisions]
    trivial
  · intro document command later _ hhonest _ hrun
    have hlast : document.revisions.getLast? = some document.latest :=
      List.getLast?_eq_some_getLast document.chain.nonempty
    cases command with
    | copy revision input =>
        simp only [timelines, Command.run, TimelineService.copy, bind_eq_ok] at hrun
        obtain ⟨target, -, hnew⟩ := hrun
        rw [(newDocument_ok hnew).2.2.2]
        trivial
    | edit sources baseNumber summary operations input =>
        obtain ⟨written, hedit, rfl⟩ := map_eq_ok.mp hrun
        obtain ⟨base, applied, edited⟩ := editSync_ok (edit_ok hedit)
        rw [edited.revisions_eq]
        refine honest_append hhonest hlast ?_
        rw [changedClips, edited.changed_eq, edited.content_eq]
        refine (applied_sameOrder (applyEdit_ok edited.applied_eq).1).mono fun id hid => ?_
        exact (mem_sortedClipIds _ _).mpr hid
    | restore number input =>
        obtain ⟨written, hrestore, rfl⟩ := map_eq_ok.mp hrun
        obtain ⟨target, restored⟩ := restore_ok hrestore
        rw [restored.revisions_eq]
        refine honest_append hhonest hlast ?_
        rw [changedClips, restored.changed_eq, restored.content_eq]
        refine (restoreChangedClipIds_sameOrder _ _).mono fun id hid => ?_
        exact (mem_sortedClipIds _ _).mpr hid

end ShortReel.TimelineChanges
