import Mathlib.Data.List.Perm.Basic
import ShortReel.EpisodeReplan

/-!
# The order of an adoption

The anchors part the episodes behind the first replaced one: the order of an adoption has each of them
once, the episodes of the candidate in their order, and those that retire at its end.
-/

namespace ShortReel.EpisodeReplan

open CutPlacements EpisodeLedger

section Groups

variable {anchor : Option ℕ → Anchor} {first : ℕ} {replaced : List ℕ}

theorem anchored_episodes (previousCut : Option ℕ) (i : ℕ) (entries : List LedgerEntry) :
    (anchored anchor first replaced previousCut i entries).map Prod.fst =
      ((entries.map (·.episode)).drop (first - i)).filter (· ∉ replaced) := by
  induction entries generalizing previousCut i with
  | nil => rw [List.map_nil, List.drop_nil]; rfl
  | cons entry entries ih =>
      rw [anchored, List.map_cons]
      by_cases hahead : i < first
      · rw [if_pos (Or.inl hahead), ih, show first - i = (first - (i + 1)) + 1 by omega,
          List.drop_succ_cons]
      · rw [show first - i = 0 by omega, List.drop_zero, List.filter_cons]
        have hrest := ih (if isCutEpisode entry then some entry.episode else previousCut) (i + 1)
        rw [show first - (i + 1) = 0 by omega, List.drop_zero] at hrest
        by_cases hreplaced : entry.episode ∈ replaced
        · have hdrop : ¬ decide (entry.episode ∉ replaced) = true := by simpa using hreplaced
          rw [if_pos (Or.inr hreplaced), if_neg hdrop]
          exact hrest
        · rw [if_neg (not_or.mpr ⟨hahead, hreplaced⟩), if_pos (decide_eq_true hreplaced)]
          exact congrArg (entry.episode :: ·) hrest

theorem of_mem_anchored {previousCut : Option ℕ} {i : ℕ} {entries : List LedgerEntry}
    {other : ℕ × Anchor} (hother : other ∈ anchored anchor first replaced previousCut i entries) :
    ∃ previous, other.2 = anchor previous := by
  induction entries generalizing previousCut i with
  | nil => cases hother
  | cons entry entries ih =>
      rw [anchored] at hother
      split_ifs at hother
      · exact ih hother
      · exact ih hother
      · rcases List.mem_cons.mp hother with rfl | hother
        · exact ⟨_, rfl⟩
        · exact ih hother
      · rcases List.mem_cons.mp hother with rfl | hother
        · exact ⟨_, rfl⟩
        · exact ih hother

theorem slotOf_lt {positions : List (ℕ × ℕ × ℕ)} {anchor : ℕ × ℕ} (hpositions : positions ≠ []) :
    slotOf positions anchor < positions.length := by
  have hpos : 0 < positions.length := List.length_pos_iff.mpr hpositions
  unfold slotOf
  generalize hfound : positions.findIdx? _ = found
  cases found with
  | none =>
      rw [Option.getD_none]
      omega
  | some i => exact (List.findIdx?_eq_some_iff_getElem.mp hfound).1

theorem anchorOf_lt {placements : List CutPlacement} {positions : List (ℕ × ℕ × ℕ)}
    {start : ℕ × ℕ} {anchorsValid : Bool} {previous : Option ℕ} {i : ℕ} (hpositions : positions ≠ [])
    (hanchor : anchorOf placements positions start anchorsValid previous = .behind i) :
    i < positions.length := by
  unfold anchorOf at hanchor
  split at hanchor
  · cases hanchor
  · split at hanchor
    · cases hanchor
    · split_ifs at hanchor
      cases hanchor
      exact slotOf_lt hpositions

theorem filter_or_perm {α : Type} {p q : α → Bool} (hdisjoint : ∀ a, p a = true → q a = false)
    (l : List α) : (l.filter p ++ l.filter q).Perm (l.filter fun a => p a || q a) := by
  induction l with
  | nil => exact List.Perm.refl _
  | cons a l ih =>
      rw [List.filter_cons, List.filter_cons, List.filter_cons]
      by_cases hp : p a = true
      · rw [if_pos hp, hdisjoint a hp, hp]
        exact ih.cons a
      · rw [if_neg hp, Bool.eq_false_iff.mpr hp, Bool.false_or]
        split
        · exact List.perm_middle.trans (ih.cons a)
        · exact ih

def isBehind (count : ℕ) : Anchor → Bool
  | .behind i => i < count
  | _ => false

theorem behind_perm (others : List (ℕ × Anchor)) (count : ℕ) :
    ((List.range count).flatMap fun i => groupOf (.behind i) others).Perm
      ((others.filter fun other => isBehind count other.2).map Prod.fst) := by
  induction count with
  | zero =>
      have hnone : (others.filter fun other => isBehind 0 other.2) = [] := by
        refine List.filter_eq_nil_iff.mpr fun other _ => ?_
        cases other.2 <;> simp [isBehind]
      rw [hnone]
      exact List.Perm.refl _
  | succ count ih =>
      have hsplit : (others.filter fun other => isBehind (count + 1) other.2) =
          others.filter fun other => isBehind count other.2 || decide (other.2 = .behind count) := by
        refine List.filter_congr fun other _ => ?_
        cases other.2 with
        | before => rfl
        | unanchored => rfl
        | behind i =>
            rw [isBehind, isBehind, ← Bool.decide_or, decide_eq_decide, Anchor.behind.injEq]
            omega
      have hdisjoint : ∀ other : ℕ × Anchor, isBehind count other.2 = true →
          decide (other.2 = .behind count) = false := by
        intro other hbehind
        refine decide_eq_false fun hsame => ?_
        rw [hsame, isBehind, decide_eq_true_eq] at hbehind
        omega
      rw [List.range_succ, List.flatMap_append, hsplit]
      refine (List.Perm.append_right _ ih).trans ?_
      have hperm := (filter_or_perm hdisjoint others).map Prod.fst
      rw [List.map_append] at hperm
      simpa [groupOf] using hperm

theorem groups_perm {others : List (ℕ × Anchor)} {count : ℕ}
    (hbound : ∀ other ∈ others, ∀ i, other.2 = .behind i → i < count) :
    (groupOf .before others ++ ((List.range count).flatMap fun i => groupOf (.behind i) others) ++
      groupOf .unanchored others).Perm (others.map Prod.fst) := by
  have hinner : ((others.filter fun other => decide (other.2 = .before)) ++
      others.filter fun other => isBehind count other.2).Perm
        (others.filter fun other => decide (other.2 = .before) || isBehind count other.2) := by
    refine filter_or_perm (fun other hbefore => ?_) others
    rw [of_decide_eq_true hbefore]
    rfl
  have houter : ((others.filter fun other => decide (other.2 = .before) || isBehind count other.2) ++
      others.filter fun other => decide (other.2 = .unanchored)).Perm others := by
    refine (filter_or_perm (fun other hfirst => ?_) others).trans ?_
    · refine decide_eq_false fun hsame => ?_
      rw [hsame] at hfirst
      exact absurd hfirst (by simp [isBehind])
    · rw [List.filter_eq_self.mpr fun other hother => ?_]
      cases hanchor : other.2 with
      | before => rfl
      | unanchored => simp
      | behind i => simp [isBehind, hbound other hother i hanchor]
  refine ((List.Perm.append_left _ (behind_perm others count)).append_right _).trans ?_
  have hgroups := (hinner.append_right (others.filter fun other =>
    decide (other.2 = .unanchored))).trans houter
  have hmapped := hgroups.map Prod.fst
  rw [List.map_append, List.map_append] at hmapped
  exact hmapped

theorem newOrder_perm (front retired : List ℕ) {others : List (ℕ × Anchor)} {count : ℕ}
    (hbound : ∀ other ∈ others, ∀ i, other.2 = .behind i → i < count) :
    (newOrder front others count retired).Perm
      ((front ++ others.map Prod.fst ++ retired).map .old ++ (List.range count).map .new) := by
  have hmiddle : ((List.range count).flatMap fun i =>
      Slot.new i :: (groupOf (.behind i) others).map Slot.old).Perm
        ((List.range count).map Slot.new ++
          ((List.range count).flatMap fun i => groupOf (.behind i) others).map Slot.old) := by
    rw [List.map_eq_flatMap, List.map_flatMap]
    exact (List.flatMap_append_perm (List.range count) (fun i => [Slot.new i])
      fun i => (groupOf (.behind i) others).map Slot.old).symm
  have hgroups := (groups_perm hbound).map Slot.old
  refine List.perm_iff_count.mpr fun slot => ?_
  have hnew := hmiddle.count_eq slot
  have hold := hgroups.count_eq slot
  simp only [List.map_append, List.count_append] at hnew hold
  simp only [newOrder, List.map_append, List.count_append, hnew]
  omega

theorem mem_groupOf {episode : ℕ} {group : Anchor} {others : List (ℕ × Anchor)}
    (hmem : episode ∈ groupOf group others) : episode ∈ others.map Prod.fst := by
  obtain ⟨other, hother, rfl⟩ := List.mem_map.mp hmem
  exact List.mem_map_of_mem (List.mem_of_mem_filter hother)

theorem newOrder_filterMap {β : Type} {f : Slot → Option β} (front retired : List ℕ)
    {others : List (ℕ × Anchor)} (count : ℕ)
    (hskip : ∀ episode ∈ others.map Prod.fst, f (.old episode) = none) :
    (newOrder front others count retired).filterMap f =
      (front.map Slot.old).filterMap f ++ ((List.range count).map Slot.new).filterMap f ++
        (retired.map Slot.old).filterMap f := by
  have hgroup : ∀ group, ((groupOf group others).map Slot.old).filterMap f = [] := by
    intro group
    rw [List.filterMap_map, List.filterMap_eq_nil_iff]
    exact fun episode hepisode => hskip episode (mem_groupOf hepisode)
  have hmiddle : ((List.range count).flatMap fun i =>
      Slot.new i :: (groupOf (.behind i) others).map Slot.old).filterMap f =
        ((List.range count).map Slot.new).filterMap f := by
    rw [List.filterMap_flatMap, List.filterMap_map, List.filterMap_eq_flatMap_toList]
    refine List.flatMap_congr fun i _ => ?_
    cases hnew : f (.new i) with
    | none => rw [List.filterMap_cons_none hnew, hgroup, Function.comp_apply, hnew]; rfl
    | some b => rw [List.filterMap_cons_some hnew, hgroup, Function.comp_apply, hnew]; rfl
  rw [newOrder, List.filterMap_append, List.filterMap_append, List.filterMap_append,
    List.filterMap_append, hgroup, hgroup, hmiddle, List.append_nil, List.append_nil]

end Groups

end ShortReel.EpisodeReplan
