import Mathlib.Data.List.Infix
import Mathlib.Data.List.TakeWhile

/-!
# Text mode digests

`TextModeDigest` of `content_digest.py`. The state after some chunks is computed from their bytes
alone, so that it does not matter where the chunks were cut.
-/

namespace ShortReel.ContentDigest

abbrev Bytes := List UInt8

def cr : UInt8 := 13

def lf : UInt8 := 10

def eof : UInt8 := 26

/-- `bytes.replace` of CRLF by LF. -/
def replaceCrlf : Bytes → Bytes
  | [] => []
  | [byte] => [byte]
  | byte :: next :: rest =>
      if byte = cr ∧ next = lf then lf :: replaceCrlf rest
      else byte :: replaceCrlf (next :: rest)

/-- `bytes.partition`: what stands before a separator, and whether there is one. -/
def partition (separator : UInt8) (bytes : Bytes) : Bytes × Bool :=
  (bytes.takeWhile (· ≠ separator), separator ∈ bytes)

structure TextModeDigest where
  digest : Bytes
  pendingCr : Bool
  truncated : Bool

def TextModeDigest.init : TextModeDigest where
  digest := []
  pendingCr := false
  truncated := false

def TextModeDigest.update (self : TextModeDigest) (chunk : Bytes) : TextModeDigest :=
  if self.truncated ∨ chunk = [] then self
  else
    let chunk := if self.pendingCr then cr :: chunk else chunk
    let (head, delimiter) := partition eof chunk
    if delimiter then
      { digest := self.digest ++ replaceCrlf head, pendingCr := false, truncated := true }
    else if head.getLast? = some cr then
      { digest := self.digest ++ replaceCrlf head.dropLast, pendingCr := true, truncated := false }
    else { digest := self.digest ++ replaceCrlf head, pendingCr := false, truncated := false }

def TextModeDigest.hexdigest {δ : Type} (sha256 : Bytes → δ) (self : TextModeDigest) : δ :=
  sha256 (if self.pendingCr then self.digest ++ [cr] else self.digest)

variable {front rest bytes chunk : Bytes}

def Parts (front rest : Bytes) : Prop :=
  front.getLast? ≠ some cr ∨ rest.head? ≠ some lf

theorem replaceCrlf_append (h : Parts front rest) :
    replaceCrlf (front ++ rest) = replaceCrlf front ++ replaceCrlf rest := by
  fun_induction replaceCrlf front with
  | case1 => rfl
  | case2 byte =>
      cases rest with
      | nil => rfl
      | cons next rest =>
          have hpair : ¬ (byte = cr ∧ next = lf) := by
            rintro ⟨rfl, rfl⟩
            simp [Parts] at h
          rw [List.singleton_append, replaceCrlf, if_neg hpair]
          rfl
  | case3 byte next front hpair ih =>
      have hfront : Parts front rest := by
        cases front with
        | nil => exact .inl (by simp)
        | cons later front => simpa only [Parts, List.getLast?_cons_cons] using h
      rw [List.cons_append, List.cons_append, replaceCrlf, if_pos hpair, ih hfront, List.cons_append]
  | case4 byte next front hpair ih =>
      have hfront : Parts (next :: front) rest := by
        simpa only [Parts, List.getLast?_cons_cons] using h
      rw [List.cons_append, List.cons_append, replaceCrlf, if_neg hpair, ← List.cons_append,
        ih hfront, List.cons_append]

theorem replaceCrlf_cons {byte : UInt8} (h : byte ≠ cr ∨ bytes.head? ≠ some lf) :
    replaceCrlf (byte :: bytes) = byte :: replaceCrlf bytes := by
  have hparts : Parts [byte] bytes := by simpa [Parts] using h
  rw [← List.singleton_append, replaceCrlf_append hparts]
  rfl

theorem Parts.mono {part : Bytes} (h : Parts front rest) (hpart : part <+: rest) :
    Parts front part := by
  refine h.imp_right fun hhead heq => hhead ?_
  obtain ⟨more, rfl⟩ := hpart
  rw [List.head?_append, heq]
  rfl

theorem replaceCrlf_append_cr (front : Bytes) :
    replaceCrlf (front ++ [cr]) = replaceCrlf front ++ [cr] :=
  replaceCrlf_append (.inr (by decide))

def textMode (bytes : Bytes) : Bytes :=
  (replaceCrlf bytes).takeWhile (· ≠ eof)

theorem takeWhile_cons_ne {byte : UInt8} (h : byte ≠ eof) (bytes : Bytes) :
    (byte :: bytes).takeWhile (· ≠ eof) = byte :: bytes.takeWhile (· ≠ eof) :=
  List.takeWhile_cons_of_pos (decide_eq_true h)

theorem textMode_eq (bytes : Bytes) : textMode bytes = replaceCrlf (bytes.takeWhile (· ≠ eof)) := by
  unfold textMode
  fun_induction replaceCrlf bytes with
  | case1 => rfl
  | case2 byte =>
      rcases eq_or_ne byte eof with rfl | hne
      · rfl
      · rw [takeWhile_cons_ne hne]
        rfl
  | case3 byte next rest hpair ih =>
      obtain ⟨rfl, rfl⟩ := hpair
      rw [takeWhile_cons_ne (by decide), ih, takeWhile_cons_ne (by decide),
        takeWhile_cons_ne (by decide), replaceCrlf, if_pos ⟨rfl, rfl⟩]
  | case4 byte next rest hpair ih =>
      rcases eq_or_ne byte eof with rfl | hne
      · rfl
      · rw [takeWhile_cons_ne hne, ih, takeWhile_cons_ne hne, replaceCrlf_cons]
        rw [List.takeWhile_cons]
        split
        · exact not_and_or.mp fun h => hpair ⟨h.1, Option.some.inj h.2⟩
        · exact .inr (by simp)

theorem takeWhile_of_notMem (h : eof ∉ bytes) : bytes.takeWhile (· ≠ eof) = bytes :=
  List.takeWhile_eq_self_iff.mpr fun _ hbyte => decide_eq_true fun heq => h (heq ▸ hbyte)

theorem takeWhile_append_of_mem (h : eof ∈ bytes) (rest : Bytes) :
    (bytes ++ rest).takeWhile (· ≠ eof) = bytes.takeWhile (· ≠ eof) := by
  induction bytes with
  | nil => cases h
  | cons byte bytes ih =>
      rcases eq_or_ne byte eof with rfl | hne
      · rfl
      · rw [List.cons_append, takeWhile_cons_ne hne, takeWhile_cons_ne hne,
          ih (List.mem_of_ne_of_mem hne.symm h)]

theorem textMode_append_of_mem (h : eof ∈ bytes) (rest : Bytes) :
    textMode (bytes ++ rest) = textMode bytes := by
  rw [textMode_eq, textMode_eq, takeWhile_append_of_mem h]

def stateOf (bytes : Bytes) : TextModeDigest :=
  if eof ∈ bytes then { digest := textMode bytes, pendingCr := false, truncated := true }
  else if bytes.getLast? = some cr then
    { digest := replaceCrlf bytes.dropLast, pendingCr := true, truncated := false }
  else { digest := replaceCrlf bytes, pendingCr := false, truncated := false }

theorem stateOf_append (hfront : eof ∉ front) (hparts : Parts front chunk) (hne : chunk ≠ []) :
    stateOf (front ++ chunk) =
      if eof ∈ chunk then
        { digest := replaceCrlf front ++ replaceCrlf (chunk.takeWhile (· ≠ eof)),
          pendingCr := false, truncated := true }
      else if chunk.getLast? = some cr then
        { digest := replaceCrlf front ++ replaceCrlf chunk.dropLast, pendingCr := true,
          truncated := false }
      else
        { digest := replaceCrlf front ++ replaceCrlf chunk, pendingCr := false,
          truncated := false } := by
  have hmem : eof ∈ front ++ chunk ↔ eof ∈ chunk := by
    rw [List.mem_append, or_iff_right hfront]
  have hlast : (front ++ chunk).getLast? = chunk.getLast? := List.getLast?_append_of_ne_nil _ hne
  simp only [stateOf, hmem, hlast]
  split
  · have hread : textMode (front ++ chunk) =
        replaceCrlf front ++ replaceCrlf (chunk.takeWhile (· ≠ eof)) := by
      rw [textMode_eq, List.takeWhile_append_of_pos,
        replaceCrlf_append (hparts.mono (List.takeWhile_prefix _))]
      exact fun byte hbyte => decide_eq_true fun heq => hfront (heq ▸ hbyte)
    rw [hread]
  split
  · rw [List.dropLast_append_of_ne_nil hne,
      replaceCrlf_append (hparts.mono (List.dropLast_prefix _))]
  · rw [replaceCrlf_append hparts]

theorem update_of_open {self : TextModeDigest} {whole : Bytes} (hopen : self.truncated = false)
    (hne : chunk ≠ []) (hwhole : (if self.pendingCr then cr :: chunk else chunk) = whole) :
    self.update chunk =
      if eof ∈ whole then
        { digest := self.digest ++ replaceCrlf (whole.takeWhile (· ≠ eof)),
          pendingCr := false, truncated := true }
      else if whole.getLast? = some cr then
        { digest := self.digest ++ replaceCrlf whole.dropLast, pendingCr := true,
          truncated := false }
      else
        { digest := self.digest ++ replaceCrlf whole, pendingCr := false, truncated := false } := by
  have hreads : ¬ (self.truncated = true ∨ chunk = []) := by simp [hopen, hne]
  rw [TextModeDigest.update, if_neg hreads, hwhole]
  rcases Classical.em (eof ∈ whole) with heof | heof
  · simp only [partition, heof, decide_true, if_true]
  · simp only [partition, heof, takeWhile_of_notMem heof, decide_false, Bool.false_eq_true, if_false]

theorem update_stateOf (bytes chunk : Bytes) :
    (stateOf bytes).update chunk = stateOf (bytes ++ chunk) := by
  rcases eq_or_ne chunk [] with rfl | hne
  · rw [List.append_nil, TextModeDigest.update, if_pos (.inr rfl)]
  rcases Classical.em (eof ∈ bytes) with heof | heof
  · rw [stateOf, if_pos heof, TextModeDigest.update, if_pos (.inl rfl), stateOf,
      if_pos (List.mem_append_left _ heof), textMode_append_of_mem heof]
  rcases Classical.em (bytes.getLast? = some cr) with hlast | hlast
  · obtain ⟨front, rfl⟩ := List.getLast?_eq_some_iff.mp hlast
    have hfront : eof ∉ front := fun hmem => heof (List.mem_append_left _ hmem)
    have hparts : Parts front (cr :: chunk) := .inr fun h => absurd (Option.some.inj h) (by decide)
    rw [List.append_assoc, List.singleton_append,
      stateOf_append hfront hparts (List.cons_ne_nil _ _), stateOf, if_neg heof, if_pos hlast,
      update_of_open rfl hne rfl, List.dropLast_concat]
    rfl
  · rw [stateOf_append heof (.inl hlast) hne, stateOf, if_neg heof, if_neg hlast,
      update_of_open rfl hne rfl]
    rfl

theorem foldl_update (chunks : List Bytes) :
    chunks.foldl TextModeDigest.update .init = stateOf chunks.flatten := by
  induction chunks using List.reverseRecOn with
  | nil => rfl
  | append_singleton chunks chunk ih =>
      rw [List.foldl_append, List.foldl_cons, List.foldl_nil, ih, update_stateOf,
        List.flatten_append, List.flatten_singleton]

theorem hexdigest_stateOf {δ : Type} (sha256 : Bytes → δ) (bytes : Bytes) :
    (stateOf bytes).hexdigest sha256 = sha256 (textMode bytes) := by
  unfold stateOf
  split
  · rfl
  rename_i heof
  rw [textMode_eq, takeWhile_of_notMem heof]
  split
  · rename_i hlast
    obtain ⟨front, rfl⟩ := List.getLast?_eq_some_iff.mp hlast
    rw [replaceCrlf_append_cr, List.dropLast_concat]
    rfl
  · rfl

/-- However a file is cut into chunks, its digest is the one of what text mode reads of it. -/
theorem hexdigest_chunks {δ : Type} (sha256 : Bytes → δ) (chunks : List Bytes) :
    (chunks.foldl TextModeDigest.update .init).hexdigest sha256 =
      sha256 (textMode chunks.flatten) := by
  rw [foldl_update, hexdigest_stateOf]

end ShortReel.ContentDigest
