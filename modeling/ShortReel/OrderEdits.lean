import Mathlib.Data.List.Nodup
import Mathlib.Data.List.Perm.Basic
import Mathlib.Data.List.TakeWhile

/-!
# Edits of an ordered list by anchors

Inserting behind an anchor, removing and moving behind an anchor, on lists without a fixed
meaning. Elements that no edit names stand in gaps between the others; the edits carry whole gaps
along, whatever stands in them.
-/

namespace ShortReel.OrderEdits

variable {α : Type*}

section Edits

variable [DecidableEq α]

/-- The element behind the first occurrence of `a`. -/
def nextOf : List α → α → Option α
  | [], _ => none
  | x :: rest, a => if x = a then rest.head? else nextOf rest a

@[simp]
theorem nextOf_nil (a : α) : nextOf [] a = none := rfl

theorem nextOf_append_right {front l : List α} {a : α} (h : a ∉ front) :
    nextOf (front ++ l) a = nextOf l a := by
  induction front with
  | nil => rfl
  | cons x front ih =>
      have hne : x ≠ a := fun heq => h (by simp [heq])
      simpa [nextOf, hne] using ih (fun hmem => h (List.mem_cons_of_mem _ hmem))

theorem nextOf_append_cons {front back : List α} {a : α} (h : a ∉ front) :
    nextOf (front ++ a :: back) a = back.head? := by
  rw [nextOf_append_right h]
  simp [nextOf]

theorem nextOf_of_notMem {l : List α} {a : α} (h : a ∉ l) : nextOf l a = none := by
  simpa using nextOf_append_right (l := []) h

theorem mem_of_nextOf {l : List α} {a b : α} (h : nextOf l a = some b) : a ∈ l := by
  by_contra hmem
  rw [nextOf_of_notMem hmem] at h
  cases h

theorem nextOf_concat {l : List α} {a : α} (h : a ∉ l) : nextOf (l ++ [a]) a = none := by
  exact nextOf_append_cons h

theorem exists_split_of_mem {l : List α} {a : α} (h : a ∈ l) :
    ∃ front back, l = front ++ a :: back ∧ a ∉ front := by
  induction l with
  | nil => cases h
  | cons x rest ih =>
      by_cases hx : x = a
      · exact ⟨[], rest, by simp [hx], by simp⟩
      · obtain ⟨front, back, rfl, hfront⟩ := ih ((List.mem_cons.mp h).resolve_left (Ne.symm hx))
        exact ⟨x :: front, back, rfl, by simp [Ne.symm hx, hfront]⟩

theorem getLast?_of_nextOf_none {l : List α} {a : α} (hmem : a ∈ l) (hnext : nextOf l a = none) :
    l.getLast? = some a := by
  obtain ⟨front, back, rfl, hfront⟩ := exists_split_of_mem hmem
  rw [nextOf_append_cons hfront] at hnext
  rw [List.head?_eq_none_iff] at hnext
  simp [hnext]

theorem getLast?_of_nextOf {l front back : List α} {a b : α} (hnodup : l.Nodup)
    (hnext : nextOf l a = some b) (hsplit : l = front ++ b :: back) :
    front.getLast? = some a := by
  obtain ⟨before, behind, hsplit', hnotMem⟩ := exists_split_of_mem (mem_of_nextOf hnext)
  rw [hsplit', nextOf_append_cons hnotMem] at hnext
  obtain ⟨rest, rfl⟩ := List.head?_eq_some_iff.mp hnext
  have hb : b ∉ front ∧ b ∉ back := by
    rw [hsplit, List.nodup_middle, List.nodup_cons] at hnodup
    simpa using hnodup.1
  have heq : front ++ b :: back = (before ++ [a]) ++ b :: rest := by
    rw [← hsplit, hsplit']
    simp
  rw [((List.append_cons_inj_of_notMem hb.1 hb.2).mp heq).1, List.getLast?_concat]

/-- Puts `x` behind the first occurrence of an anchor, or in front of everything. -/
def insertBehind (x : α) : Option α → List α → List α
  | none, l => x :: l
  | some _, [] => []
  | some a, y :: rest => if y = a then y :: x :: rest else y :: insertBehind x (some a) rest

theorem insertBehind_split (x : α) {a : α} {front back : List α} (h : a ∉ front) :
    insertBehind x (some a) (front ++ a :: back) = front ++ a :: x :: back := by
  induction front with
  | nil => simp [insertBehind]
  | cons y front ih =>
      have hne : y ≠ a := fun heq => h (by simp [heq])
      simpa [insertBehind, hne] using ih (fun hmem => h (List.mem_cons_of_mem _ hmem))

omit [DecidableEq α] in
theorem insertIdx_append_length (x : α) (front back : List α) :
    (front ++ back).insertIdx front.length x = front ++ x :: back := by
  induction front with
  | nil => rfl
  | cons y front ih => simpa using ih

theorem insertBehind_perm (x : α) {after : Option α} {l : List α} (h : ∀ a ∈ after, a ∈ l) :
    (insertBehind x after l).Perm (x :: l) := by
  cases after with
  | none => simp [insertBehind]
  | some a =>
      obtain ⟨front, back, rfl, hfront⟩ := exists_split_of_mem (h a rfl)
      rw [insertBehind_split x hfront]
      exact (List.Perm.append_left front (List.Perm.swap x a back)).trans List.perm_middle

inductive OrderEdit (α : Type*) where
  | insert (x : α) (after : Option α)
  | remove (x : α)
  | move (x : α) (after : Option α)

namespace OrderEdit

def run : OrderEdit α → List α → List α
  | insert x after, l => insertBehind x after l
  | remove x, l => l.erase x
  | move x after, l => insertBehind x after (l.erase x)

/-- What an edit needs of the list it is made on: new elements are new, named ones are there. -/
def Applies : OrderEdit α → List α → Prop
  | insert x after, l => x ∉ l ∧ ∀ a ∈ after, a ∈ l
  | remove x, l => x ∈ l
  | move x after, l => x ∈ l ∧ after ≠ some x ∧ ∀ a ∈ after, a ∈ l

theorem anchor_mem_erase {x : α} {after : Option α} {l : List α} (hself : after ≠ some x)
    (hmem : ∀ a ∈ after, a ∈ l) : ∀ a ∈ after, a ∈ l.erase x := by
  intro a ha
  have hne : a ≠ x := by
    rintro rfl
    exact hself ha
  exact (List.mem_erase_of_ne hne).mpr (hmem a ha)

theorem nodup_run {edit : OrderEdit α} {l : List α} (h : edit.Applies l) (hnodup : l.Nodup) :
    (edit.run l).Nodup := by
  cases edit with
  | insert x after =>
      exact (insertBehind_perm x h.2).nodup_iff.mpr (List.nodup_cons.mpr ⟨h.1, hnodup⟩)
  | remove x => exact hnodup.erase x
  | move x after =>
      have hperm := insertBehind_perm x (anchor_mem_erase h.2.1 h.2.2)
      exact hperm.nodup_iff.mpr (List.nodup_cons.mpr ⟨hnodup.not_mem_erase, hnodup.erase x⟩)

def names : OrderEdit α → List α
  | insert _ after => after.toList
  | remove x => [x]
  | move x after => x :: after.toList

def element : OrderEdit α → α
  | insert x _ => x
  | remove x => x
  | move x _ => x

def map {β : Type*} (f : α → β) : OrderEdit α → OrderEdit β
  | insert x after => .insert (f x) (after.map f)
  | remove x => .remove (f x)
  | move x after => .move (f x) (after.map f)

def runAll (edits : List (OrderEdit α)) (l : List α) : List α :=
  edits.foldl (fun l edit => edit.run l) l

@[simp]
theorem runAll_nil (l : List α) : runAll [] l = l := rfl

@[simp]
theorem runAll_cons (edit : OrderEdit α) (edits : List (OrderEdit α)) (l : List α) :
    runAll (edit :: edits) l = runAll edits (edit.run l) := rfl

theorem runAll_append (first second : List (OrderEdit α)) (l : List α) :
    runAll (first ++ second) l = runAll second (runAll first l) :=
  List.foldl_append

end OrderEdit

theorem mem_of_mem_insertBehind {x y : α} {after : Option α} {l : List α}
    (h : y ∈ insertBehind x after l) : y = x ∨ y ∈ l := by
  cases after with
  | none => simpa [insertBehind] using h
  | some a =>
      induction l with
      | nil => cases h
      | cons z l ih =>
          simp only [insertBehind] at h
          split at h
          · simpa [or_left_comm] using h
          · rcases List.mem_cons.mp h with rfl | h
            · exact Or.inr List.mem_cons_self
            · exact (ih h).imp_right (List.mem_cons_of_mem _)

theorem mem_of_mem_runAll {edits : List (OrderEdit α)} {y : α} {l : List α}
    (h : y ∈ OrderEdit.runAll edits l) : y ∈ l ∨ ∃ edit ∈ edits, edit.element = y := by
  induction edits generalizing l with
  | nil => exact Or.inl h
  | cons edit edits ih =>
      rcases ih h with h | ⟨other, hother, heq⟩
      · have hrun : y = edit.element ∨ y ∈ l := by
          cases edit with
          | insert x after => exact mem_of_mem_insertBehind h
          | remove x => exact Or.inr (List.mem_of_mem_erase h)
          | move x after => exact (mem_of_mem_insertBehind h).imp_right List.mem_of_mem_erase
        rcases hrun with rfl | h
        · exact Or.inr ⟨edit, List.mem_cons_self, rfl⟩
        · exact Or.inl h
      · exact Or.inr ⟨other, List.mem_cons_of_mem _ hother, heq⟩

theorem insertBehind_append_right {x a : α} {front l : List α} (h : a ∉ front) :
    insertBehind x (some a) (front ++ l) = front ++ insertBehind x (some a) l := by
  induction front with
  | nil => rfl
  | cons y front ih =>
      have hne : y ≠ a := fun heq => h (by simp [heq])
      simpa [insertBehind, hne] using ih (fun hmem => h (List.mem_cons_of_mem _ hmem))

end Edits

inductive Token (α γ : Type*) where
  | element (a : α)
  | gap (g : γ)
  deriving DecidableEq

section Gaps

variable {γ : Type*} (fill : γ → List α)

/-- The list a token list stands for, when `fill` says what stands in each gap. -/
def expand : List (Token α γ) → List α
  | [] => []
  | .element a :: tokens => a :: expand tokens
  | .gap g :: tokens => fill g ++ expand tokens

@[simp]
theorem expand_nil : expand fill [] = [] := rfl

@[simp]
theorem expand_element (a : α) (tokens : List (Token α γ)) :
    expand fill (.element a :: tokens) = a :: expand fill tokens := rfl

@[simp]
theorem expand_gap (g : γ) (tokens : List (Token α γ)) :
    expand fill (.gap g :: tokens) = fill g ++ expand fill tokens := rfl

variable {fill}

def leadingGaps : List (Token α γ) → List γ
  | .gap g :: rest => g :: leadingGaps rest
  | _ => []

def firstElement : List (Token α γ) → Option α
  | [] => none
  | .element y :: _ => some y
  | .gap _ :: rest => firstElement rest

theorem head?_expand (tokens : List (Token α γ)) :
    (expand fill tokens).head? =
      ((leadingGaps tokens).flatMap fill).head?.or (firstElement tokens) := by
  induction tokens with
  | nil => rfl
  | cons token tokens ih =>
      cases token with
      | element y => simp [leadingGaps, firstElement]
      | gap g => simp [leadingGaps, firstElement, List.head?_append, ih, Option.or_assoc]

theorem firstElement_mem {tokens : List (Token α γ)} {a : α} (h : firstElement tokens = some a) :
    .element a ∈ tokens := by
  induction tokens with
  | nil => cases h
  | cons token tokens ih =>
      cases token with
      | element y =>
          simp only [firstElement, Option.some.injEq] at h
          simp [h]
      | gap g => exact List.mem_cons_of_mem _ (ih h)

variable [DecidableEq α]

theorem expand_insertBehind [DecidableEq γ] (x : α) {after : Option α} (h : ∀ a ∈ after, ∀ g, a ∉ fill g)
    (tokens : List (Token α γ)) :
    expand fill (insertBehind (.element x) (after.map .element) tokens) =
      insertBehind x after (expand fill tokens) := by
  cases after with
  | none => simp [insertBehind]
  | some a =>
      induction tokens with
      | nil => simp [insertBehind]
      | cons token tokens ih =>
          cases token with
          | element b =>
              by_cases hb : b = a
              · simp [insertBehind, hb]
              · simpa [insertBehind, hb] using ih
          | gap g =>
              rw [expand_gap, insertBehind_append_right (h a rfl g)]
              simpa [insertBehind] using ih

theorem expand_erase [DecidableEq γ] {x : α} (h : ∀ g, x ∉ fill g) (tokens : List (Token α γ)) :
    expand fill (tokens.erase (.element x)) = (expand fill tokens).erase x := by
  induction tokens with
  | nil => simp
  | cons token tokens ih =>
      cases token with
      | element b =>
          by_cases hb : b = x
          · simp [hb]
          · simp [hb, ih]
      | gap g =>
          simp only [List.erase_cons, beq_iff_eq, reduceCtorEq, if_false, expand_gap, ih]
          rw [List.erase_append_right _ (h g)]

theorem expand_run [DecidableEq γ] {edit : OrderEdit α} (h : ∀ a ∈ edit.names, ∀ g, a ∉ fill g)
    (tokens : List (Token α γ)) :
    expand fill ((edit.map Token.element).run tokens) = edit.run (expand fill tokens) := by
  cases edit with
  | insert x after => exact expand_insertBehind x (by simpa [OrderEdit.names] using h) tokens
  | remove x => exact expand_erase (by simpa [OrderEdit.names] using h) tokens
  | move x after =>
      have hx : ∀ g, x ∉ fill g := h x (by simp [OrderEdit.names])
      have hafter : ∀ a ∈ after, ∀ g, a ∉ fill g := fun a ha =>
        h a (by simp [OrderEdit.names, Option.mem_def.mp ha])
      simp only [OrderEdit.map, OrderEdit.run]
      rw [expand_insertBehind x hafter, expand_erase hx]

theorem expand_runAll [DecidableEq γ] {edits : List (OrderEdit α)}
    (h : ∀ edit ∈ edits, ∀ a ∈ edit.names, ∀ g, a ∉ fill g) (tokens : List (Token α γ)) :
    expand fill (OrderEdit.runAll (edits.map (OrderEdit.map Token.element)) tokens) =
      OrderEdit.runAll edits (expand fill tokens) := by
  induction edits generalizing tokens with
  | nil => rfl
  | cons edit edits ih =>
      simp only [List.map_cons, OrderEdit.runAll_cons]
      rw [ih (fun other hother => h other (List.mem_cons_of_mem _ hother)),
        expand_run (h edit List.mem_cons_self)]

def tokensBehind (x : α) : List (Token α γ) → List (Token α γ)
  | [] => []
  | .element y :: rest => if y = x then rest else tokensBehind x rest
  | .gap _ :: rest => tokensBehind x rest

def gapsBehind (x : α) (tokens : List (Token α γ)) : List γ :=
  leadingGaps (tokensBehind x tokens)

theorem mem_of_mem_tokensBehind {x : α} {tokens : List (Token α γ)} {token : Token α γ}
    (h : token ∈ tokensBehind x tokens) : token ∈ tokens := by
  induction tokens with
  | nil => cases h
  | cons first tokens ih =>
      cases first with
      | element y =>
          simp only [tokensBehind] at h
          split at h
          · exact List.mem_cons_of_mem _ h
          · exact List.mem_cons_of_mem _ (ih h)
      | gap g => exact List.mem_cons_of_mem _ (ih h)

theorem nextOf_expand_eq_head? {x : α} (h : ∀ g, x ∉ fill g) (tokens : List (Token α γ)) :
    nextOf (expand fill tokens) x = (expand fill (tokensBehind x tokens)).head? := by
  induction tokens with
  | nil => rfl
  | cons token tokens ih =>
      cases token with
      | element y =>
          by_cases hy : y = x
          · simp [nextOf, tokensBehind, hy]
          · simpa [nextOf, tokensBehind, hy] using ih
      | gap g =>
          rw [expand_gap, nextOf_append_right (h g)]
          simpa [tokensBehind] using ih

theorem nextOf_expand_eq_iff {other : γ → List α} {x : α} {tokens : List (Token α γ)}
    (hfill : ∀ a g, .element a ∈ tokens → a ∉ fill g)
    (hother : ∀ a g, .element a ∈ tokens → a ∉ other g)
    (hx : ∀ g, x ∉ fill g ∧ x ∉ other g) :
    nextOf (expand fill tokens) x = nextOf (expand other tokens) x ↔
      ((gapsBehind x tokens).flatMap fill).head? = ((gapsBehind x tokens).flatMap other).head? := by
  rw [nextOf_expand_eq_head? (fun g => (hx g).1), nextOf_expand_eq_head? (fun g => (hx g).2),
    head?_expand, head?_expand, ← gapsBehind]
  cases helement : firstElement (tokensBehind x tokens) with
  | none => simp
  | some a =>
      have hmem : .element a ∈ tokens := mem_of_mem_tokensBehind (firstElement_mem helement)
      have hapart : ∀ filling : γ → List α, (∀ g, a ∉ filling g) →
          ((gapsBehind x tokens).flatMap filling).head? ≠ some a := by
        intro filling hfilling heq
        obtain ⟨g, -, ha⟩ := List.mem_flatMap.mp (List.mem_of_mem_head? heq)
        exact hfilling g ha
      have hleft := hapart fill (fun g => hfill a g hmem)
      have hright := hapart other (fun g => hother a g hmem)
      cases hl : ((gapsBehind x tokens).flatMap fill).head? with
      | none =>
          cases hr : ((gapsBehind x tokens).flatMap other).head? with
          | none => simp
          | some b =>
              rw [hr] at hright
              simpa [eq_comm] using hright
      | some b =>
          cases hr : ((gapsBehind x tokens).flatMap other).head? with
          | none =>
              rw [hl] at hleft
              simpa using hleft
          | some c => simp

end Gaps

/-- The elements that stay, each with the gap behind it, and the gap in front of them all. -/
def skeleton (kept : List α) : List (Token α (Option α)) :=
  .gap none :: kept.flatMap fun a => [.element a, .gap (some a)]

/-- The members of `moving` that stand at the front, or directly behind an element. -/
def gapOf [DecidableEq α] (moving : α → Bool) (l : List α) : Option α → List α
  | none => l.takeWhile moving
  | some a => ((l.dropWhile (· ≠ a)).tail).takeWhile moving

theorem mem_gapOf [DecidableEq α] {moving : α → Bool} {l : List α} {g : Option α} {a : α}
    (h : a ∈ gapOf moving l g) : moving a = true := by
  cases g with
  | none => exact List.mem_takeWhile_imp h
  | some b => exact List.mem_takeWhile_imp h

theorem gapOf_subset [DecidableEq α] (moving : α → Bool) (l : List α) (g : Option α) :
    gapOf moving l g ⊆ l := by
  cases g with
  | none => exact (List.takeWhile_sublist _).subset
  | some a =>
      exact ((List.takeWhile_sublist _).trans
        ((List.tail_sublist _).trans (List.dropWhile_sublist _))).subset

theorem mem_of_element_mem_skeleton {kept : List α} {a : α}
    (h : (.element a : Token α (Option α)) ∈ skeleton kept) : a ∈ kept := by
  simp only [skeleton, List.mem_cons, reduceCtorEq, false_or, List.mem_flatMap] at h
  obtain ⟨b, hb, hmem⟩ := h
  have heq : a = b := by simpa using hmem
  exact heq ▸ hb

theorem expand_gaps_congr {fill other : Option α → List α} {kept : List α}
    (h : ∀ a ∈ kept, fill (some a) = other (some a)) :
    expand fill (kept.flatMap fun a => [.element a, .gap (some a)]) =
      expand other (kept.flatMap fun a => [.element a, .gap (some a)]) := by
  induction kept with
  | nil => rfl
  | cons a kept ih =>
      simp only [List.flatMap_cons, List.cons_append, List.nil_append, expand_element, expand_gap]
      rw [h a List.mem_cons_self, ih (fun b hb => h b (List.mem_cons_of_mem _ hb))]

theorem expand_skeleton [DecidableEq α] (moving : α → Bool) {l : List α} (hnodup : l.Nodup) :
    expand (gapOf moving l) (skeleton (l.filter fun a => !moving a)) = l := by
  induction l with
  | nil => rfl
  | cons x l ih =>
      obtain ⟨hx, hl⟩ := List.nodup_cons.mp hnodup
      have ih := ih hl
      -- Behind another element the gap is the same with and without `x` in front.
      have hbehind : ∀ a ∈ l.filter (fun a => !moving a),
          gapOf moving (x :: l) (some a) = gapOf moving l (some a) := by
        intro a ha
        have hne : x ≠ a := by
          rintro rfl
          exact hx (List.mem_of_mem_filter ha)
        simp [gapOf, hne]
      simp only [skeleton, expand_gap] at ih ⊢
      cases hmoving : moving x with
      | true =>
          have hkept : (x :: l).filter (fun a => !moving a) = l.filter fun a => !moving a := by
            simp [hmoving]
          rw [hkept, expand_gaps_congr hbehind]
          simpa [gapOf, hmoving] using ih
      | false =>
          have hkept : (x :: l).filter (fun a => !moving a) = x :: l.filter fun a => !moving a := by
            simp [hmoving]
          rw [hkept]
          simp only [List.flatMap_cons, List.cons_append, List.nil_append, expand_element,
            expand_gap]
          rw [expand_gaps_congr hbehind]
          simpa [gapOf, hmoving] using ih

end ShortReel.OrderEdits
