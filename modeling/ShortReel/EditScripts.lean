import Mathlib.Data.List.Chain

/-!
# Edit scripts

Slices of a list, and the operations that turn one list into another, each over a slice of either.
-/

namespace ShortReel.EditScripts

variable {α : Type}

/-- `l[start:stop]`. -/
def slice (l : List α) (start stop : ℕ) : List α :=
  (l.take stop).drop start

theorem slice_of_le {l : List α} {start stop : ℕ} (h : stop ≤ start) : slice l start stop = [] := by
  refine List.drop_eq_nil_of_le ?_
  rw [List.length_take]
  exact le_trans (Nat.min_le_left _ _) h

theorem slice_of_length_le {l : List α} {start stop : ℕ} (h : l.length ≤ start) :
    slice l start stop = [] := by
  refine List.drop_eq_nil_of_le ?_
  rw [List.length_take]
  exact le_trans (Nat.min_le_right _ _) h

theorem slice_zero_length (l : List α) : slice l 0 l.length = l := by
  rw [slice, List.take_length, List.drop_zero]

theorem length_slice {l : List α} {start stop : ℕ} (h : stop ≤ l.length) :
    (slice l start stop).length = stop - start := by
  rw [slice, List.length_drop, List.length_take, Nat.min_eq_left h]

theorem slice_append (x y : List α) (start stop : ℕ) :
    slice (x ++ y) start stop =
      slice x start stop ++ slice y (start - x.length) (stop - x.length) := by
  rcases Nat.le_total stop x.length with hle | hle
  · rw [slice, slice, List.take_append_of_le_length hle, Nat.sub_eq_zero_of_le hle,
      slice_of_le (Nat.zero_le _), List.append_nil]
  · rw [slice, slice, slice, List.take_append, List.drop_append, List.take_of_length_le hle]

theorem slice_split (l : List α) {start mid stop : ℕ} (hstart : start ≤ mid) (hstop : mid ≤ stop) :
    slice l start stop = slice l start mid ++ slice l mid stop := by
  obtain ⟨more, rfl⟩ := Nat.exists_eq_add_of_le hstop
  have hsecond : slice l mid (mid + more) = (l.drop mid).take more := by
    rw [slice, List.drop_take, Nat.add_sub_cancel_left]
  rcases Nat.le_total mid l.length with hle | hle
  · rw [hsecond, slice, List.take_add, List.drop_append_of_le_length, slice]
    rwa [List.length_take, Nat.min_eq_left hle]
  · rw [slice_of_length_le hle, List.append_nil, slice, slice,
      List.take_of_length_le hle, List.take_of_length_le (le_trans hle hstop)]

theorem take_append_slice (l : List α) {start stop : ℕ} (h : start ≤ stop) :
    l.take stop = l.take start ++ slice l start stop :=
  slice_split l (Nat.zero_le start) h

theorem slice_slice (l : List α) {first last start stop : ℕ} (h : first + stop ≤ last) :
    slice (slice l first last) start stop = slice l (first + start) (first + stop) := by
  rw [slice, slice, slice, List.take_drop, List.take_take, Nat.min_eq_left h, List.drop_drop]

theorem slice_length_le {l : List α} {start stop : ℕ} (h : l.length ≤ stop) :
    slice l start stop = l.drop start := by
  rw [slice, List.take_of_length_le h]

theorem slice_around {before mid behind : List α} {start stop : ℕ}
    (hstart : start ≤ before.length + mid.length) (hstop : before.length ≤ stop) :
    slice (before ++ (mid ++ behind)) start stop =
      before.drop start ++ (slice mid (start - before.length) (stop - before.length) ++
        behind.take (stop - before.length - mid.length)) := by
  have hzero : start - before.length - mid.length = 0 := by omega
  rw [slice_append, slice_append, slice_length_le hstop, hzero]
  rfl

inductive Tag where
  | equal
  | replace
  | delete
  | insert
  deriving DecidableEq, Repr

/-- `(tag, i1, i2, j1, j2)`: what becomes of the slice from `i1` to `i2`. -/
structure Opcode where
  tag : Tag
  i1 : ℕ
  i2 : ℕ
  j1 : ℕ
  j2 : ℕ
  deriving DecidableEq, Repr

namespace Opcode

def Fits (old new : List α) (op : Opcode) : Prop :=
  match op.tag with
  | .equal => op.i1 < op.i2 ∧ op.j1 + op.i2 = op.j2 + op.i1 ∧
      slice old op.i1 op.i2 = slice new op.j1 op.j2
  | .replace => op.i1 < op.i2 ∧ op.j1 < op.j2
  | .delete => op.i1 < op.i2 ∧ op.j1 = op.j2
  | .insert => op.i1 = op.i2 ∧ op.j1 < op.j2

variable {old new : List α} {op : Opcode}

theorem Fits.insert_eq (h : op.Fits old new) (htag : op.tag = .insert) : op.i1 = op.i2 := by
  rw [Fits, htag] at h
  exact h.1

theorem Fits.lt_of_ne (h : op.Fits old new) (htag : op.tag ≠ .insert) : op.i1 < op.i2 := by
  unfold Fits at h
  split at h
  · exact h.1
  · exact h.1
  · exact h.1
  · exact absurd ‹_› htag

theorem Fits.old_le (h : op.Fits old new) : op.i1 ≤ op.i2 := by
  by_cases htag : op.tag = .insert
  · exact (h.insert_eq htag).le
  · exact (h.lt_of_ne htag).le

theorem Fits.new_le (h : op.Fits old new) : op.j1 ≤ op.j2 := by
  unfold Fits at h
  split at h
  · obtain ⟨hlt, hlength, -⟩ := h
    omega
  · exact h.2.le
  · exact h.2.le
  · exact h.2.le

theorem Fits.equal (h : op.Fits old new) (htag : op.tag = .equal) :
    op.j1 + op.i2 = op.j2 + op.i1 ∧ slice old op.i1 op.i2 = slice new op.j1 op.j2 := by
  rw [Fits, htag] at h
  exact h.2

def shift (oldBase newBase : ℕ) (op : Opcode) : Opcode :=
  { op with
    i1 := op.i1 + oldBase
    i2 := op.i2 + oldBase
    j1 := op.j1 + newBase
    j2 := op.j2 + newBase }

end Opcode

/-- The operations go on from one to the next, from the first pair of positions to the last. -/
inductive Script (old new : List α) : List Opcode → ℕ → ℕ → ℕ → ℕ → Prop where
  | nil {i j : ℕ} : Script old new [] i j i j
  | cons {op : Opcode} {ops : List Opcode} {n m : ℕ} (hfits : op.Fits old new)
      (hrest : Script old new ops op.i2 op.j2 n m) : Script old new (op :: ops) op.i1 op.j1 n m

def Separated (ops : List Opcode) : Prop :=
  ops.IsChain fun first second => first.tag = .equal ∨ second.tag = .equal

namespace Script

variable {old new : List α} {ops later : List Opcode} {i j n m : ℕ}

theorem old_le (h : Script old new ops i j n m) : i ≤ n := by
  induction h with
  | nil => exact Nat.le_refl _
  | cons hfits _ ih => exact hfits.old_le.trans ih

theorem new_le (h : Script old new ops i j n m) : j ≤ m := by
  induction h with
  | nil => exact Nat.le_refl _
  | cons hfits _ ih => exact hfits.new_le.trans ih

theorem append {k l : ℕ} (h : Script old new ops i j n m) (hlater : Script old new later n m k l) :
    Script old new (ops ++ later) i j k l := by
  induction h with
  | nil => exact hlater
  | cons hfits _ ih => exact .cons hfits (ih hlater)

theorem singleton (op : Opcode) (h : op.Fits old new) :
    Script old new [op] op.i1 op.j1 op.i2 op.j2 :=
  .cons h .nil

theorem shift {a b c d : ℕ} (h : Script (slice old a b) (slice new c d) ops i j n m)
    (hold : a + n ≤ b) (hnew : c + m ≤ d) :
    Script old new (ops.map (Opcode.shift a c)) (i + a) (j + c) (n + a) (m + c) := by
  induction h with
  | nil => exact .nil
  | @cons op ops n m hfits hrest ih =>
      have hoverOld := hrest.old_le
      have hoverNew := hrest.new_le
      have hfits' : (op.shift a c).Fits old new := by
        have hlengths : a + op.i2 ≤ b ∧ c + op.j2 ≤ d := by omega
        unfold Opcode.Fits at hfits ⊢
        dsimp only [Opcode.shift]
        split at hfits
        · obtain ⟨hlt, hlength, heq⟩ := hfits
          rw [slice_slice _ hlengths.1, slice_slice _ hlengths.2] at heq
          refine ⟨by omega, by omega, ?_⟩
          rwa [Nat.add_comm op.i1, Nat.add_comm op.i2, Nat.add_comm op.j1, Nat.add_comm op.j2]
        · omega
        · omega
        · omega
      exact .cons hfits' (ih hold hnew)

theorem fits (h : Script old new ops i j n m) : ∀ op ∈ ops, op.Fits old new := by
  induction h with
  | nil => exact fun op hop => absurd hop List.not_mem_nil
  | cons hfits _ ih => exact List.forall_mem_cons.mpr ⟨hfits, ih⟩

theorem head (h : Script old new ops i j n m) : ∀ op ∈ ops.head?, op.i1 = i ∧ op.j1 = j := by
  cases h with
  | nil => exact fun op hop => absurd hop (by simp)
  | cons hfits hrest =>
      rintro op ⟨⟩
      exact ⟨rfl, rfl⟩

theorem chain (h : Script old new ops i j n m) :
    ops.IsChain fun first second => first.i2 = second.i1 ∧ first.j2 = second.j1 := by
  induction h with
  | nil => exact List.IsChain.nil
  | cons hfits hrest ih =>
      refine List.isChain_cons.mpr ⟨fun next hnext => ?_, ih⟩
      obtain ⟨hold, hnew⟩ := hrest.head next hnext
      exact ⟨hold.symm, hnew.symm⟩

theorem ends_of_nil (h : Script old new [] i j n m) : i = n ∧ j = m := by
  cases h with
  | nil => exact ⟨rfl, rfl⟩

theorem last (h : Script old new ops i j n m) : ∀ op ∈ ops.getLast?, op.i2 = n ∧ op.j2 = m := by
  induction h with
  | nil => exact fun op hop => absurd hop (by simp)
  | @cons op ops n m hfits hrest ih =>
      cases ops with
      | nil =>
          rintro final ⟨⟩
          exact hrest.ends_of_nil
      | cons next later =>
          rw [List.getLast?_cons_cons]
          exact ih

theorem covers (h : Script old new ops i j n m) :
    (ops.map fun op => slice old op.i1 op.i2).flatten = slice old i n ∧
      (ops.map fun op => slice new op.j1 op.j2).flatten = slice new j m := by
  induction h with
  | nil => exact ⟨(slice_of_le (Nat.le_refl _)).symm, (slice_of_le (Nat.le_refl _)).symm⟩
  | cons hfits hrest ih =>
      rw [List.map_cons, List.map_cons, List.flatten_cons, List.flatten_cons, ih.1, ih.2,
        ← slice_split old hfits.old_le hrest.old_le, ← slice_split new hfits.new_le hrest.new_le]
      exact ⟨rfl, rfl⟩

end Script

end ShortReel.EditScripts
