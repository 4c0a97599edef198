import ShortReel.AlignmentScripts

/-!
# Positions of an alignment

Where a script takes the positions of the old text: forward, in order, and over a stretch without a
change to the ends of the same text.
-/

namespace ShortReel.AlignmentPositions

open EditScripts SourceAlignment

def inner (op : Opcode) (position : ℕ) : ℕ :=
  if op.tag = .equal then op.j1 + (position - op.i1)
  else if op.tag = .delete then op.j1
  else op.j1 + (position - op.i1) * (op.j2 - op.j1) / (op.i2 - op.i1)

section Operations

variable {α : Type} {old new : List α} {op : Opcode} {ops : List Opcode} {i j n m : ℕ}
  {position later : ℕ} {after : Bool}

theorem inner_start : inner op op.i1 = op.j1 := by
  unfold inner
  split_ifs <;> simp

theorem inner_mono (h : position ≤ later) : inner op position ≤ inner op later := by
  unfold inner
  split_ifs
  · omega
  · exact le_rfl
  · refine Nat.add_le_add_left (Nat.div_le_div_right ?_) _
    exact Nat.mul_le_mul_right _ (Nat.sub_le_sub_right h _)

theorem inner_le (hfits : op.Fits old new) (h : position < op.i2) : inner op position ≤ op.j2 := by
  have hnew := hfits.new_le
  unfold inner
  split_ifs with hequal
  · have hlength := (hfits.equal hequal).1
    have hle := hfits.old_le
    omega
  · exact hnew
  · have hquotient : (position - op.i1) * (op.j2 - op.j1) / (op.i2 - op.i1) ≤ op.j2 - op.j1 := by
      refine Nat.div_le_of_le_mul ?_
      exact Nat.mul_le_mul_right _ (Nat.sub_le_sub_right h.le _)
    omega

theorem le_inner : op.j1 ≤ inner op position := by
  unfold inner
  split_ifs
  · exact Nat.le_add_right _ _
  · exact le_rfl
  · exact Nat.le_add_right _ _

theorem mapPosition_nil : TextAlignment.mapPosition ⟨[], n, m⟩ n after = m := by
  simp [TextAlignment.mapPosition]

theorem mapPosition_insert (htag : op.tag = .insert) (hposition : op.i1 = position) :
    TextAlignment.mapPosition ⟨op :: ops, n, m⟩ position after = if after then op.j2 else op.j1 := by
  simp [TextAlignment.mapPosition, htag, hposition]

theorem mapPosition_skip (hposition : op.i2 ≤ position) (hinsert : op.tag = .insert → op.i1 ≠ position) :
    TextAlignment.mapPosition ⟨op :: ops, n, m⟩ position after =
      TextAlignment.mapPosition ⟨ops, n, m⟩ position after := by
  have hfirst : ¬ (op.tag = .insert ∧ op.i1 = position) := fun h => hinsert h.1 h.2
  have hsecond : ¬ (op.i1 ≤ position ∧ position < op.i2) := by omega
  simp [TextAlignment.mapPosition, hfirst, hsecond]

theorem mem_old_le (h : Script old new ops i j n m) : ∀ op ∈ ops, i ≤ op.i1 := by
  induction h with
  | nil => exact fun _ hop => absurd hop List.not_mem_nil
  | cons hfits _ ih =>
      intro op hop
      rcases List.mem_cons.mp hop with rfl | hop
      · exact le_rfl
      · exact hfits.old_le.trans (ih op hop)

theorem head_old_eq (h : Script old new ops i j n m) : ∀ op ∈ ops.head?, op.i1 = i := by
  cases h with
  | nil => exact fun _ hop => absurd hop (by simp)
  | cons =>
      intro op hop
      cases hop
      rfl

theorem mapPosition_inner (hfits : op.Fits old new) (hrest : Script old new ops op.i2 op.j2 n m)
    (hle : op.i1 ≤ position) (hlt : position < op.i2) :
    TextAlignment.mapPosition ⟨op :: ops, n, m⟩ position after = inner op position := by
  have hnone : ((op :: ops).find? fun op => op.tag = .insert ∧ op.i1 = position) = none := by
    refine List.find?_eq_none.mpr fun other hother => ?_
    rw [decide_eq_true_eq]
    rintro ⟨htag, hposition⟩
    rcases List.mem_cons.mp hother with rfl | hother
    · have heq := hfits.insert_eq htag
      omega
    · have hbehind := mem_old_le hrest other hother
      omega
  have hfound : ((op :: ops).find? fun op => op.i1 ≤ position ∧ position < op.i2) = some op :=
    List.find?_cons_of_pos (by simp [hle, hlt])
  unfold TextAlignment.mapPosition
  dsimp only
  rw [hnone, hfound]
  rfl

theorem mapPosition_start (h : Script old new ops i j n m)
    (hinsert : after = true → ∀ op ∈ ops.head?, op.tag ≠ .insert) :
    TextAlignment.mapPosition ⟨ops, n, m⟩ i after = j := by
  cases h with
  | nil => exact mapPosition_nil
  | @cons op ops _ _ hfits hrest =>
      by_cases htag : op.tag = .insert
      · rw [mapPosition_insert htag rfl]
        cases after with
        | false => rfl
        | true => exact absurd htag (hinsert rfl op rfl)
      · rw [mapPosition_inner hfits hrest le_rfl (hfits.lt_of_ne htag), inner_start]

theorem mapPosition_mem (h : Script old new ops i j n m) (hi : i ≤ position) (hn : position ≤ n) :
    j ≤ TextAlignment.mapPosition ⟨ops, n, m⟩ position after ∧
      TextAlignment.mapPosition ⟨ops, n, m⟩ position after ≤ m := by
  induction h with
  | nil =>
      obtain rfl := Nat.le_antisymm hi hn
      rw [mapPosition_nil]
      exact ⟨le_rfl, le_rfl⟩
  | @cons op ops n m hfits hrest ih =>
      have hnew := hfits.new_le
      have hend := hrest.new_le
      rcases Nat.lt_or_ge position op.i2 with hlt | hge
      · rw [mapPosition_inner hfits hrest hi hlt]
        exact ⟨le_inner, (inner_le hfits hlt).trans hend⟩
      by_cases hinsert : op.tag = .insert ∧ op.i1 = position
      · rw [mapPosition_insert hinsert.1 hinsert.2]
        split_ifs
        · exact ⟨hnew, hend⟩
        · exact ⟨le_rfl, hnew.trans hend⟩
      · rw [mapPosition_skip hge fun htag heq => hinsert ⟨htag, heq⟩]
        obtain ⟨hlower, hupper⟩ := ih hge hn
        exact ⟨hnew.trans hlower, hupper⟩

theorem mapPosition_end (h : Script old new ops i j n m)
    (hinsert : ∀ op ∈ ops, op.tag = .insert → op.i1 ≠ n) :
    TextAlignment.mapPosition ⟨ops, n, m⟩ n after = m := by
  induction h with
  | nil => exact mapPosition_nil
  | cons hfits hrest ih =>
      rw [mapPosition_skip hrest.old_le (hinsert _ List.mem_cons_self)]
      exact ih fun op hop => hinsert op (List.mem_cons_of_mem _ hop)

theorem mapPosition_lt (h : Script old new ops i j n m) (hi : i ≤ position) (hlt : position < later)
    (hn : later ≤ n) (after after' : Bool) :
    TextAlignment.mapPosition ⟨ops, n, m⟩ position after ≤
      TextAlignment.mapPosition ⟨ops, n, m⟩ later after' := by
  induction h with
  | nil => omega
  | @cons op ops n m hfits hrest ih =>
      have hfollows : op.i2 ≤ later → op.j2 ≤
          TextAlignment.mapPosition ⟨op :: ops, n, m⟩ later after' := by
        intro hle
        have hold := hfits.old_le
        rw [mapPosition_skip hle fun _ heq => by omega]
        exact (mapPosition_mem hrest hle hn).1
      rcases Nat.lt_or_ge position op.i2 with hinside | hge
      · rw [mapPosition_inner hfits hrest hi hinside]
        rcases Nat.lt_or_ge later op.i2 with hlater | hlater
        · rw [mapPosition_inner hfits hrest (hi.trans hlt.le) hlater]
          exact inner_mono hlt.le
        · exact (inner_le hfits hinside).trans (hfollows hlater)
      by_cases hinsert : op.tag = .insert ∧ op.i1 = position
      · rw [mapPosition_insert hinsert.1 hinsert.2]
        have hnew := hfits.new_le
        have hbehind := hfollows (hge.trans hlt.le)
        split_ifs
        · exact hbehind
        · exact hnew.trans hbehind
      · rw [mapPosition_skip hge fun htag heq => hinsert ⟨htag, heq⟩,
          mapPosition_skip (hge.trans hlt.le) fun _ heq => by omega]
        exact ih hge hn

theorem mapPosition_sides {alignment : TextAlignment}
    (h : ∀ op ∈ alignment.opcodes, op.tag = .insert → op.i1 ≠ position) (after after' : Bool) :
    alignment.mapPosition position after = alignment.mapPosition position after' := by
  have hnone : (alignment.opcodes.find? fun op => op.tag = .insert ∧ op.i1 = position) = none := by
    refine List.find?_eq_none.mpr fun op hop => ?_
    rw [decide_eq_true_eq]
    exact fun hinsert => h op hop hinsert.1 hinsert.2
  unfold TextAlignment.mapPosition
  rw [hnone]

theorem changesBetween_mono {start start' stop : ℕ} {atStart atEnd : Bool} (hle : start ≤ start')
    (h : changesBetween start stop atStart atEnd op = false) :
    changesBetween start' stop false false op = false := by
  unfold changesBetween at h ⊢
  split at h
  · rfl
  · simp only [Bool.or_eq_false_iff, decide_eq_false_iff_not, not_and, Bool.and_false,
      Bool.or_false] at h ⊢
    exact fun hlt => h.1.1 (hle.trans_lt hlt)
  · simp only [decide_eq_false_iff_not, not_and] at h ⊢
    exact fun hlt hlt' => h hlt (hle.trans_lt hlt')
  · simp only [decide_eq_false_iff_not, not_and] at h ⊢
    exact fun hlt hlt' => h hlt (hle.trans_lt hlt')

theorem equal_of_unchanged {low high : ℕ} (hfits : op.Fits old new) (hle : op.i1 ≤ low)
    (hlt : low < op.i2) (hlow : low < high)
    (h : changesBetween low high false false op = false) : op.tag = .equal := by
  unfold changesBetween at h
  cases htag : op.tag with
  | equal => rfl
  | insert =>
      have heq := hfits.insert_eq htag
      omega
  | replace =>
      rw [htag] at h
      simp only [decide_eq_false_iff_not, not_and] at h
      omega
  | delete =>
      rw [htag] at h
      simp only [decide_eq_false_iff_not, not_and] at h
      omega

theorem not_insert_of_unchanged {low high : ℕ} (hlow : low < op.i1) (hhigh : op.i1 < high)
    (h : changesBetween low high false false op = false) : op.tag ≠ .insert := by
  intro htag
  unfold changesBetween at h
  rw [htag] at h
  simp only [Bool.and_false, Bool.or_false, decide_eq_false_iff_not, not_and] at h
  exact h hlow hhigh

theorem head_not_insert {next : Opcode} (hseparated : Separated (op :: ops)) (htag : op.tag ≠ .equal)
    (hnext : next ∈ ops.head?) : next.tag ≠ .insert := by
  cases ops with
  | nil => cases hnext
  | cons first ops =>
      cases hnext
      have hequal := (List.isChain_cons_cons.mp hseparated).1.resolve_left htag
      rw [hequal]
      decide

theorem slice_inner (hfits : op.Fits old new) (htag : op.tag = .equal) {low high : ℕ}
    (hle : op.i1 ≤ low) (hlt : low ≤ high) (hhigh : high ≤ op.i2) :
    slice old low high = slice new (inner op low) (op.j1 + (high - op.i1)) := by
  obtain ⟨hlength, hslices⟩ := hfits.equal htag
  have hpart := congrArg (slice · (low - op.i1) (high - op.i1)) hslices
  rw [slice_slice _ (by omega), slice_slice _ (by omega), Nat.add_sub_cancel' hle,
    Nat.add_sub_cancel' (hle.trans hlt)] at hpart
  rw [hpart, inner, if_pos htag]

theorem slice_mapPosition (h : Script old new ops i j n m) (hseparated : Separated ops)
    {low high : ℕ} (hi : i ≤ low) (hle : low ≤ high) (hn : high ≤ n)
    (hunchanged : ∀ op ∈ ops, changesBetween low high false false op = false) :
    slice old low high =
      slice new (TextAlignment.mapPosition ⟨ops, n, m⟩ low true)
        (TextAlignment.mapPosition ⟨ops, n, m⟩ high false) := by
  induction h generalizing low with
  | nil =>
      obtain rfl := Nat.le_antisymm hi (hle.trans hn)
      obtain rfl := Nat.le_antisymm hle hn
      rw [slice_of_le le_rfl, mapPosition_nil, mapPosition_nil, slice_of_le le_rfl]
  | @cons op ops n m hfits hrest ih =>
      have hop := hunchanged op List.mem_cons_self
      have hops := fun other hother => hunchanged other (List.mem_cons_of_mem op hother)
      rcases Nat.lt_or_ge low op.i2 with hinside | hge
      · rw [mapPosition_inner hfits hrest hi hinside]
        rcases Nat.eq_or_lt_of_le hle with rfl | hlt
        · rw [mapPosition_inner hfits hrest hi hinside, slice_of_le le_rfl, slice_of_le le_rfl]
        have hequal := equal_of_unchanged hfits hi hinside hlt hop
        rcases Nat.lt_or_ge high op.i2 with hhigh | hhigh
        · rw [mapPosition_inner hfits hrest (hi.trans hle) hhigh,
            slice_inner hfits hequal hi hle hhigh.le, inner, inner, if_pos hequal, if_pos hequal]
        · -- The operation ends inside the stretch, and the script goes on from there.
          have hlength := (hfits.equal hequal).1
          have hend : op.j1 + (op.i2 - op.i1) = op.j2 := by
            have hold := hfits.old_le
            omega
          have hfirst := slice_inner hfits hequal hi hinside.le le_rfl
          rw [hend] at hfirst
          rw [mapPosition_skip hhigh fun htag => by rw [hequal] at htag; cases htag]
          rcases Nat.eq_or_lt_of_le hhigh with rfl | hbehind
          · rw [mapPosition_start hrest (fun htrue => by cases htrue), hfirst]
          · have hstart : TextAlignment.mapPosition ⟨ops, n, m⟩ op.i2 true = op.j2 := by
              refine mapPosition_start hrest fun _ next hnext => ?_
              have hmem := List.mem_of_mem_head? hnext
              have hbegin := head_old_eq hrest next hnext
              refine not_insert_of_unchanged ?_ ?_ (hops next hmem) <;> rw [hbegin] <;> assumption
            have hlater := ih hseparated.tail le_rfl hhigh hn fun other hother =>
              changesBetween_mono hinside.le (hops other hother)
            have hmono := (@mapPosition_mem _ _ _ _ _ _ _ _ _ false hrest hhigh hn).1
            rw [slice_split old hinside.le hhigh, hfirst, hlater, hstart,
              ← slice_split new (inner_le hfits hinside) hmono]
      by_cases hinsert : op.tag = .insert ∧ op.i1 = low
      · have hold := hfits.insert_eq hinsert.1
        rw [mapPosition_insert hinsert.1 hinsert.2, if_pos rfl]
        rcases Nat.eq_or_lt_of_le hle with rfl | hlt
        · rw [mapPosition_insert hinsert.1 hinsert.2, if_neg Bool.false_ne_true, slice_of_le le_rfl,
            slice_of_le hfits.new_le]
        · have hlater := ih hseparated.tail hge hle hn hops
          have hlow : low = op.i2 := by omega
          have hstart : TextAlignment.mapPosition ⟨ops, n, m⟩ low true = op.j2 := by
            rw [hlow]
            refine mapPosition_start hrest fun _ next hnext => head_not_insert hseparated ?_ hnext
            rw [hinsert.1]
            decide
          rw [mapPosition_skip (by omega) fun _ heq => by omega, hlater, hstart]
      · have hlow : op.tag = .insert → op.i1 ≠ low := fun htag heq => hinsert ⟨htag, heq⟩
        have hhigh : op.tag = .insert → op.i1 ≠ high := by
          intro htag heq
          have hold := hfits.insert_eq htag
          exact hlow htag (by omega)
        rw [mapPosition_skip hge hlow, mapPosition_skip (hge.trans hle) hhigh]
        exact ih hseparated.tail hge hle hn hops

end Operations

end ShortReel.AlignmentPositions
