import ShortReel.SourceAlignment

/-!
# Alignment scripts

The operations of an alignment are a script from the old text to the new one, and two changes in it
are never next to each other.
-/

namespace ShortReel.AlignmentScripts

open EditScripts SourceAlignment

section Matcher

variable {α : Type} {a b : List α}

theorem gapOpcodes_script {i j : ℕ} {block : Block} (hi : i ≤ block.i) (hj : j ≤ block.j) :
    Script a b (gapOpcodes i j block) i j block.i block.j := by
  unfold gapOpcodes
  split_ifs with hboth hdelete hinsert
  · exact Script.singleton ⟨.replace, i, block.i, j, block.j⟩ hboth
  · have heq : j = block.j := by omega
    exact Script.singleton ⟨.delete, i, block.i, j, block.j⟩ ⟨hdelete, heq⟩
  · have heq : i = block.i := by omega
    exact Script.singleton ⟨.insert, i, block.i, j, block.j⟩ ⟨heq, hinsert⟩
  · obtain rfl : i = block.i := by omega
    obtain rfl : j = block.j := by omega
    exact .nil

theorem blockOpcodes_script {block : Block}
    (hmatched : slice a block.i (block.i + block.size) = slice b block.j (block.j + block.size)) :
    Script a b (blockOpcodes block) block.i block.j (block.i + block.size)
      (block.j + block.size) := by
  unfold blockOpcodes
  split_ifs with hsize
  · rw [hsize]
    exact .nil
  · refine Script.singleton ⟨.equal, _, _, _, _⟩ ⟨?_, ?_, hmatched⟩ <;> dsimp only <;> omega

theorem opcodesFrom_script {front : List Block} {i j : ℕ}
    (hmatched : ∀ block ∈ front,
      slice a block.i (block.i + block.size) = slice b block.j (block.j + block.size))
    (hordered : (⟨i, j, 0⟩ :: (front ++ [⟨a.length, b.length, 0⟩])).IsChain
      fun first second : Block =>
        first.i + first.size ≤ second.i ∧ first.j + first.size ≤ second.j) :
    Script a b (opcodesFrom i j (front ++ [⟨a.length, b.length, 0⟩])) i j a.length b.length := by
  induction front generalizing i j with
  | nil =>
      obtain ⟨hi, hj⟩ := (List.isChain_cons_cons.mp hordered).1
      have hgap := @gapOpcodes_script _ a b i j ⟨a.length, b.length, 0⟩ hi hj
      have hnone : opcodesFrom i j ([] ++ [⟨a.length, b.length, 0⟩]) =
          gapOpcodes i j ⟨a.length, b.length, 0⟩ := List.append_nil _
      rwa [hnone]
  | cons block front ih =>
      obtain ⟨⟨hi, hj⟩, hrest⟩ := List.isChain_cons_cons.mp hordered
      have hblock := blockOpcodes_script (hmatched block List.mem_cons_self)
      refine (gapOpcodes_script hi hj).append (hblock.append (ih ?_ ?_))
      · exact fun other hother => hmatched other (List.mem_cons_of_mem _ hother)
      · cases front with
        | nil =>
            obtain ⟨hnext, hlater⟩ := List.isChain_cons_cons.mp hrest
            exact List.isChain_cons_cons.mpr ⟨hnext, hlater⟩
        | cons next front =>
            obtain ⟨hnext, hlater⟩ := List.isChain_cons_cons.mp hrest
            exact List.isChain_cons_cons.mpr ⟨hnext, hlater⟩

theorem getOpcodes_script [DecidableEq α] (matcher : SequenceMatcher) (a b : List α) :
    Script a b (matcher.getOpcodes a b) 0 0 a.length b.length := by
  obtain ⟨hmatched, hordered, front, heq, -⟩ := matcher.matching a b
  rw [SequenceMatcher.getOpcodes, heq]
  rw [heq] at hmatched hordered
  refine opcodesFrom_script ?_ ?_
  · exact fun block hblock => hmatched block (List.mem_append_left _ hblock)
  · cases front with
    | nil => exact List.isChain_cons_cons.mpr ⟨⟨Nat.zero_le _, Nat.zero_le _⟩, hordered⟩
    | cons first front => exact List.isChain_cons_cons.mpr ⟨⟨Nat.zero_le _, Nat.zero_le _⟩, hordered⟩

theorem separated_equal_cons (op : Opcode) {ops : List Opcode} (htag : op.tag = .equal)
    (h : Separated ops) : Separated (op :: ops) := by
  cases ops with
  | nil => exact List.isChain_singleton op
  | cons next ops => exact List.isChain_cons_cons.mpr ⟨.inl htag, h⟩

theorem separated_cons_equal {op next : Opcode} {ops : List Opcode} (htag : next.tag = .equal)
    (h : Separated (next :: ops)) : Separated (op :: next :: ops) :=
  List.isChain_cons_cons.mpr ⟨.inr htag, h⟩

theorem opcodesFrom_separated {front : List Block} {last : Block} {i j : ℕ}
    (hfront : ∀ block ∈ front, block.size ≠ 0) (hlast : last.size = 0) :
    Separated (opcodesFrom i j (front ++ [last])) := by
  induction front generalizing i j with
  | nil =>
      have hnone : opcodesFrom i j ([] ++ [last]) = gapOpcodes i j last := by
        simp [opcodesFrom, blockOpcodes, hlast]
      rw [hnone]
      unfold gapOpcodes
      split_ifs
      · exact List.isChain_singleton _
      · exact List.isChain_singleton _
      · exact List.isChain_singleton _
      · exact List.isChain_nil
  | cons block front ih =>
      have hsize := hfront block List.mem_cons_self
      have hlater := @ih (block.i + block.size) (block.j + block.size)
        fun other hother => hfront other (List.mem_cons_of_mem _ hother)
      have hrest := separated_equal_cons
        ⟨.equal, block.i, block.i + block.size, block.j, block.j + block.size⟩ rfl hlater
      rw [List.cons_append, opcodesFrom, blockOpcodes, if_neg hsize, List.singleton_append]
      unfold gapOpcodes
      split_ifs
      · exact separated_cons_equal rfl hrest
      · exact separated_cons_equal rfl hrest
      · exact separated_cons_equal rfl hrest
      · exact hrest

theorem getOpcodes_separated [DecidableEq α] (matcher : SequenceMatcher) (a b : List α) :
    Separated (matcher.getOpcodes a b) := by
  obtain ⟨-, -, front, heq, hfront⟩ := matcher.matching a b
  rw [SequenceMatcher.getOpcodes, heq]
  exact opcodesFrom_separated hfront rfl

end Matcher

theorem splitLines_flatten (text : Text) : (splitLines text).flatten = text := by
  fun_induction splitLines text with
  | case1 => rfl
  | case2 text ih => simp [ih]
  | case3 c text _ _ ih => simp [ih]
  | case4 c text _ _ hnil ih => simp [hnil] at ih ⊢; exact ih
  | case5 c text _ _ line lines hcons ih => simpa [hcons] using ih

theorem splitLines_nonempty (text : Text) : ∀ line ∈ splitLines text, line ≠ [] := by
  fun_induction splitLines text with
  | case1 => exact fun _ h => absurd h List.not_mem_nil
  | case2 text ih =>
      intro line hline
      rcases List.mem_cons.mp hline with rfl | hline
      · exact List.cons_ne_nil _ _
      · exact ih line hline
  | case3 c text _ _ ih =>
      intro line hline
      rcases List.mem_cons.mp hline with rfl | hline
      · exact List.cons_ne_nil _ _
      · exact ih line hline
  | case4 c text _ _ hnil ih =>
      intro line hline
      obtain rfl := List.mem_singleton.mp hline
      exact List.cons_ne_nil _ _
  | case5 c text _ _ line lines hcons ih =>
      intro other hother
      rcases List.mem_cons.mp hother with rfl | hother
      · exact List.cons_ne_nil _ _
      · exact ih other (hcons ▸ List.mem_cons_of_mem _ hother)

section Offsets

variable {lines : List Text}

theorem lineOffset_length : lineOffset lines lines.length = lines.flatten.length := by
  rw [lineOffset, List.take_length]

theorem flatten_take {index stop : ℕ} (h : index ≤ stop) :
    (lines.take stop).flatten = (lines.take index).flatten ++ (slice lines index stop).flatten := by
  rw [take_append_slice lines h, List.flatten_append]

theorem slice_lineOffset {index stop : ℕ} (h : index ≤ stop) :
    slice lines.flatten (lineOffset lines index) (lineOffset lines stop) =
      (slice lines index stop).flatten := by
  have hwhole : lines.flatten = (lines.take stop).flatten ++ (lines.drop stop).flatten := by
    rw [← List.flatten_append, List.take_append_drop]
  rw [slice, hwhole, lineOffset, lineOffset, List.take_left, flatten_take h, List.drop_left]

theorem lineOffset_mono {index stop : ℕ} (h : index ≤ stop) :
    lineOffset lines index ≤ lineOffset lines stop := by
  rw [lineOffset, lineOffset, flatten_take h, List.length_append]
  exact Nat.le_add_right _ _

theorem lineOffset_lt (hlines : ∀ line ∈ lines, line ≠ []) {index stop : ℕ} (h : index < stop)
    (hstop : stop ≤ lines.length) : lineOffset lines index < lineOffset lines stop := by
  have hpositive : 0 < (slice lines index stop).flatten.length := by
    have hlength : (slice lines index stop).length = stop - index := length_slice hstop
    cases hslice : slice lines index stop with
    | nil =>
        rw [hslice, List.length_nil] at hlength
        omega
    | cons line rest =>
        have hmem : line ∈ lines := by
          have hline : line ∈ slice lines index stop := hslice ▸ List.mem_cons_self
          exact List.mem_of_mem_take (List.mem_of_mem_drop hline)
        rw [List.flatten_cons, List.length_append]
        exact Nat.add_pos_left (List.length_pos_of_ne_nil (hlines line hmem)) _
  rw [lineOffset, lineOffset, flatten_take h.le, List.length_append]
  omega

end Offsets

variable (matcher : SequenceMatcher) {old new : Text}

theorem separated_append_equal {ops later : List Opcode} {op : Opcode} (htag : op.tag = .equal)
    (h : Separated ops) (hlater : Separated (op :: later)) : Separated (ops ++ op :: later) := by
  refine List.isChain_append.mpr ⟨h, hlater, ?_⟩
  intro last _ first hfirst
  cases hfirst
  exact .inr htag

theorem separated_flatMap {ops : List Opcode} {f : Opcode → List Opcode} (h : Separated ops)
    (hequal : ∀ op, op.tag = .equal → ∃ whole : Opcode, f op = [whole] ∧ whole.tag = .equal)
    (hparts : ∀ op, Separated (f op)) : Separated (ops.flatMap f) := by
  induction ops with
  | nil => exact List.isChain_nil
  | cons op ops ih =>
      rw [List.flatMap_cons]
      by_cases htag : op.tag = .equal
      · obtain ⟨whole, hwhole, hwholeTag⟩ := hequal op htag
        rw [hwhole, List.singleton_append]
        exact separated_equal_cons whole hwholeTag (ih h.tail)
      · cases ops with
        | nil =>
            rw [List.flatMap_nil, List.append_nil]
            exact hparts op
        | cons next ops =>
            have hnext : next.tag = .equal := (List.isChain_cons_cons.mp h).1.resolve_left htag
            obtain ⟨whole, hwhole, hwholeTag⟩ := hequal next hnext
            have hrest := ih h.tail
            rw [List.flatMap_cons, hwhole, List.singleton_append] at hrest ⊢
            exact separated_append_equal hwholeTag (hparts op) hrest

theorem alignChars_script {a1 a2 b1 b2 : ℕ} (ha : a1 ≤ a2) (hold : a2 ≤ old.length) (hb : b1 ≤ b2)
    (hnew : b2 ≤ new.length) :
    Script old new (alignChars matcher (slice old a1 a2) (slice new b1 b2) a1 b1) a1 b1 a2 b2 := by
  have hscript := getOpcodes_script matcher (slice old a1 a2) (slice new b1 b2)
  rw [length_slice hold, length_slice hnew] at hscript
  have hshift := hscript.shift (by omega) (by omega)
  rwa [Nat.zero_add, Nat.zero_add, Nat.sub_add_cancel ha, Nat.sub_add_cancel hb] at hshift

theorem separated_shift {ops : List Opcode} (h : Separated ops) (oldBase newBase : ℕ) :
    Separated (ops.map (Opcode.shift oldBase newBase)) :=
  List.isChain_map_of_isChain (Opcode.shift oldBase newBase) (fun _ _ heq => heq) h

theorem alignBlock_separated (op : Opcode) : Separated (alignBlock matcher old new 0 0 op) := by
  unfold alignBlock
  dsimp only
  split_ifs
  · exact separated_shift (getOpcodes_separated matcher _ _) _ _
  · exact List.isChain_singleton _

theorem alignBlock_equal (op : Opcode) (htag : op.tag = .equal) :
    ∃ whole : Opcode, alignBlock matcher old new 0 0 op = [whole] ∧ whole.tag = .equal := by
  refine ⟨_, if_neg ?_, htag⟩
  rintro ⟨hreplace, -⟩
  rw [htag] at hreplace
  cases hreplace

theorem lineOffset_le (text : Text) {index : ℕ} (h : index ≤ (splitLines text).length) :
    lineOffset (splitLines text) index ≤ text.length := by
  have hmono := @lineOffset_mono (splitLines text) _ _ h
  rwa [lineOffset_length, splitLines_flatten] at hmono

theorem alignBlock_script {op : Opcode} (hfits : op.Fits (splitLines old) (splitLines new))
    (hold : op.i2 ≤ (splitLines old).length) (hnew : op.j2 ≤ (splitLines new).length) :
    Script old new (alignBlock matcher old new 0 0 op) (lineOffset (splitLines old) op.i1)
      (lineOffset (splitLines new) op.j1) (lineOffset (splitLines old) op.i2)
      (lineOffset (splitLines new) op.j2) := by
  have ha := @lineOffset_mono (splitLines old) _ _ hfits.old_le
  have hb := @lineOffset_mono (splitLines new) _ _ hfits.new_le
  have holdEnd := lineOffset_le old hold
  have hnewEnd := lineOffset_le new hnew
  unfold alignBlock
  dsimp only
  split_ifs with hsmall
  · exact alignChars_script matcher ha holdEnd hb hnewEnd
  · have holdLt := fun h : op.i1 < op.i2 => lineOffset_lt (splitLines_nonempty old) h hold
    have hnewLt := fun h : op.j1 < op.j2 => lineOffset_lt (splitLines_nonempty new) h hnew
    refine Script.singleton ⟨op.tag, _, _, _, _⟩ ?_
    cases htag : op.tag with
    | equal =>
        obtain ⟨hlength, hslices⟩ := hfits.equal htag
        have hflat := congrArg List.flatten hslices
        rw [← slice_lineOffset hfits.old_le, ← slice_lineOffset hfits.new_le, splitLines_flatten,
          splitLines_flatten] at hflat
        have hlengths := congrArg List.length hflat
        rw [length_slice holdEnd, length_slice hnewEnd] at hlengths
        have hlt := hfits.lt_of_ne (htag ▸ by decide)
        exact ⟨holdLt hlt, by dsimp only; omega, hflat⟩
    | replace =>
        rw [Opcode.Fits, htag] at hfits
        exact ⟨holdLt hfits.1, hnewLt hfits.2⟩
    | delete =>
        rw [Opcode.Fits, htag] at hfits
        exact ⟨holdLt hfits.1, congrArg (lineOffset (splitLines new)) hfits.2⟩
    | insert =>
        rw [Opcode.Fits, htag] at hfits
        exact ⟨congrArg (lineOffset (splitLines old)) hfits.1, hnewLt hfits.2⟩

theorem alignBlocks_script {ops : List Opcode} {i j n m : ℕ}
    (h : Script (splitLines old) (splitLines new) ops i j n m) (hold : n ≤ (splitLines old).length)
    (hnew : m ≤ (splitLines new).length) :
    Script old new (ops.flatMap (alignBlock matcher old new 0 0)) (lineOffset (splitLines old) i)
      (lineOffset (splitLines new) j) (lineOffset (splitLines old) n)
      (lineOffset (splitLines new) m) := by
  induction h with
  | nil => exact .nil
  | cons hfits hrest ih =>
      have hblock := alignBlock_script matcher hfits (hrest.old_le.trans hold) (hrest.new_le.trans hnew)
      exact hblock.append (ih hold hnew)

theorem alignMiddle_script :
    Script old new (alignMiddle matcher old new 0 0) 0 0 old.length new.length := by
  unfold alignMiddle
  split_ifs with hempty hboth hold
  · obtain ⟨rfl, rfl⟩ := hboth
    exact .nil
  · rw [Nat.zero_add, Nat.zero_add]
    have hnew : new ≠ [] := fun hnew => hboth ⟨hold, hnew⟩
    exact Script.singleton ⟨.insert, 0, old.length, 0, new.length⟩
      ⟨congrArg List.length hold.symm, List.length_pos_of_ne_nil hnew⟩
  · rw [Nat.zero_add, Nat.zero_add]
    have hnew := hempty.resolve_left hold
    exact Script.singleton ⟨.delete, 0, old.length, 0, new.length⟩
      ⟨List.length_pos_of_ne_nil hold, congrArg List.length hnew.symm⟩
  · have hlines := getOpcodes_script matcher (splitLines old) (splitLines new)
    have hscript := alignBlocks_script matcher hlines le_rfl le_rfl
    rw [lineOffset_length, lineOffset_length, splitLines_flatten, splitLines_flatten] at hscript
    exact hscript

theorem alignMiddle_separated : Separated (alignMiddle matcher old new 0 0) := by
  unfold alignMiddle
  split_ifs
  · exact List.isChain_nil
  · exact List.isChain_singleton _
  · exact List.isChain_singleton _
  · exact separated_flatMap (getOpcodes_separated matcher (splitLines old) (splitLines new))
      (alignBlock_equal matcher) (alignBlock_separated matcher)

theorem alignBlock_shift (oldBase newBase : ℕ) (op : Opcode) :
    alignBlock matcher old new oldBase newBase op =
      (alignBlock matcher old new 0 0 op).map (Opcode.shift oldBase newBase) := by
  unfold alignBlock
  dsimp only
  split_ifs
  · rw [alignChars, alignChars, List.map_map]
    congr 1
    funext op
    simp only [Opcode.shift, Function.comp_apply, Nat.add_zero, Nat.add_assoc]
  · simp only [List.map_cons, List.map_nil, Opcode.shift, Nat.add_zero]

theorem alignMiddle_shift (oldBase newBase : ℕ) :
    alignMiddle matcher old new oldBase newBase =
      (alignMiddle matcher old new 0 0).map (Opcode.shift oldBase newBase) := by
  unfold alignMiddle
  split_ifs
  · rfl
  · simp only [List.map_cons, List.map_nil, Opcode.shift, Nat.zero_add, Nat.add_comm oldBase,
      Nat.add_comm newBase]
  · simp only [List.map_cons, List.map_nil, Opcode.shift, Nat.zero_add, Nat.add_comm oldBase,
      Nat.add_comm newBase]
  · rw [List.map_flatMap]
    congr 1
    funext op
    exact alignBlock_shift matcher oldBase newBase op

theorem commonLength_le (old new : Text) :
    commonLength old new ≤ old.length ∧ commonLength old new ≤ new.length := by
  fun_induction commonLength old new with
  | case1 c old new ih => exact ⟨Nat.succ_le_succ ih.1, Nat.succ_le_succ ih.2⟩
  | case2 => exact ⟨Nat.zero_le _, Nat.zero_le _⟩
  | case3 => exact ⟨Nat.zero_le _, Nat.zero_le _⟩

theorem take_commonLength {count : ℕ} (h : count ≤ commonLength old new) :
    old.take count = new.take count := by
  fun_induction commonLength old new generalizing count with
  | case1 c old new ih =>
      cases count with
      | zero => rfl
      | succ count => rw [List.take_succ_cons, List.take_succ_cons, ih (Nat.le_of_succ_le_succ h)]
  | case2 =>
      obtain rfl := Nat.le_zero.mp h
      rfl
  | case3 =>
      obtain rfl := Nat.le_zero.mp h
      rfl

theorem prefixLength_le (old new : Text) : prefixLength old new ≤ commonLength old new := by
  unfold prefixLength
  dsimp only
  split_ifs
  · exact Nat.sub_le _ _
  · exact le_rfl

theorem suffixLength_le (old new : Text) :
    suffixLength old new ≤ commonLength old.reverse new.reverse ∧
      suffixLength old new ≤ min old.length new.length - commonLength old new := by
  have hle : suffixLength old new ≤ min (commonLength old.reverse new.reverse)
      (min old.length new.length - commonLength old new) := by
    unfold suffixLength
    dsimp only
    generalize min (commonLength old.reverse new.reverse)
      (min old.length new.length - commonLength old new) = length
    split
    · split
      · split
        · omega
        · exact le_rfl
      · split
        · exact Nat.zero_le _
        · exact le_rfl
    · exact le_rfl
  exact Nat.le_min.mp hle

theorem equal_script {i1 i2 j1 j2 : ℕ} (hlength : j1 + i2 = j2 + i1)
    (hslices : slice old i1 i2 = slice new j1 j2) (hle : i1 ≤ i2) :
    Script old new (if i2 - i1 = 0 then [] else [⟨.equal, i1, i2, j1, j2⟩]) i1 j1 i2 j2 := by
  split_ifs with hzero
  · obtain rfl : i1 = i2 := by omega
    obtain rfl : j1 = j2 := by omega
    exact .nil
  · exact Script.singleton ⟨.equal, i1, i2, j1, j2⟩ ⟨by dsimp only; omega, hlength, hslices⟩

theorem slice_suffix {count : ℕ} (h : count ≤ commonLength old.reverse new.reverse) :
    slice old (old.length - count) old.length = slice new (new.length - count) new.length := by
  have hreverse := take_commonLength h
  rw [List.take_reverse, List.take_reverse] at hreverse
  rw [slice, slice, List.take_length, List.take_length]
  exact List.reverse_injective hreverse

theorem separated_ends {first last : List Opcode} {ops : List Opcode} (h : Separated ops)
    (hfirst : first = [] ∨ ∃ op : Opcode, first = [op] ∧ op.tag = .equal)
    (hlast : last = [] ∨ ∃ op : Opcode, last = [op] ∧ op.tag = .equal) :
    Separated (first ++ ops ++ last) := by
  have hbehind : Separated (ops ++ last) := by
    rcases hlast with rfl | ⟨op, rfl, htag⟩
    · rwa [List.append_nil]
    · exact separated_append_equal htag h (List.isChain_singleton op)
  rw [List.append_assoc]
  rcases hfirst with rfl | ⟨op, rfl, htag⟩
  · exact hbehind
  · exact separated_equal_cons op htag hbehind

theorem alignTexts_separated (old new : Text) : Separated (alignTexts matcher old new).opcodes := by
  unfold alignTexts
  dsimp only
  rw [alignMiddle_shift]
  refine separated_ends (separated_shift (alignMiddle_separated matcher) _ _) ?_ ?_
  · split_ifs
    · exact .inl rfl
    · exact .inr ⟨_, rfl, rfl⟩
  · split_ifs
    · exact .inl rfl
    · exact .inr ⟨_, rfl, rfl⟩

theorem alignTexts_script (old new : Text) :
    Script old new (alignTexts matcher old new).opcodes 0 0 old.length new.length := by
  obtain ⟨hcommonOld, hcommonNew⟩ := commonLength_le old new
  obtain ⟨hreverse, hroom⟩ := suffixLength_le old new
  have hprefix := prefixLength_le old new
  unfold alignTexts
  dsimp only
  generalize prefixLength old new = first at *
  generalize suffixLength old new = last at *
  have hends : first + last ≤ old.length ∧ first + last ≤ new.length := by omega
  have hfirst := @equal_script old new 0 first 0 first (Nat.add_comm _ _)
    (take_commonLength hprefix) (Nat.zero_le _)
  have hlast := @equal_script old new (old.length - last) old.length (new.length - last) new.length
    (by omega) (slice_suffix hreverse) (Nat.sub_le _ _)
  have hmiddle := (@alignMiddle_script matcher (slice old first (old.length - last))
    (slice new first (new.length - last))).shift (by rw [length_slice (Nat.sub_le _ _)]; omega)
      (by rw [length_slice (Nat.sub_le _ _)]; omega)
  rw [length_slice (Nat.sub_le _ _), length_slice (Nat.sub_le _ _), Nat.zero_add,
    Nat.sub_add_cancel (by omega), Nat.sub_add_cancel (by omega)] at hmiddle
  rw [Nat.sub_zero] at hfirst
  rw [Nat.sub_sub_self (by omega)] at hlast
  rw [alignMiddle_shift]
  exact (hfirst.append hmiddle).append hlast

/-- The operations cover both texts from their beginning to their end, and what is equal reads the same. -/
theorem alignTexts_covers (old new : Text) :
    let ops := (alignTexts matcher old new).opcodes
    (∀ op ∈ ops.head?, op.i1 = 0 ∧ op.j1 = 0) ∧
    ops.IsChain (fun first second => first.i2 = second.i1 ∧ first.j2 = second.j1) ∧
    (∀ op ∈ ops.getLast?, op.i2 = old.length ∧ op.j2 = new.length) ∧
    (ops.map fun op => slice old op.i1 op.i2).flatten = old ∧
    (ops.map fun op => slice new op.j1 op.j2).flatten = new ∧
    (∀ op ∈ ops, op.Fits old new) ∧
    ∀ op ∈ ops, op.tag = .equal → slice old op.i1 op.i2 = slice new op.j1 op.j2 := by
  have hscript := alignTexts_script matcher old new
  have hcovers := hscript.covers
  rw [slice_zero_length, slice_zero_length] at hcovers
  exact ⟨hscript.head, hscript.chain, hscript.last, hcovers.1, hcovers.2, hscript.fits,
    fun op hop htag => ((hscript.fits op hop).equal htag).2⟩

end ShortReel.AlignmentScripts
