import ShortReel.InsertionDict

/-!
# Trees of files

A tree has a node at each of its paths. A path is read name by name, and one name goes up. Files are
moved one after the other.
-/

namespace ShortReel.FileTrees

open InsertionDict

variable {σ β : Type} [DecidableEq σ]

inductive Node (β : Type) where
  | directory
  | file (bytes : β)
  deriving DecidableEq, Repr

abbrev Tree (σ β : Type) := Dict (List σ) (Node β)

def node (tree : Tree σ β) (path : List σ) : Option (Node β) :=
  if path = [] then some .directory else get tree path

def isDir (tree : Tree σ β) (path : List σ) : Bool :=
  match node tree path with
  | some .directory => true
  | _ => false

def fileAt (tree : Tree σ β) (path : List σ) : Option β :=
  match node tree path with
  | some (.file bytes) => some bytes
  | _ => none

def children (tree : Tree σ β) (directory : List σ) : List (List σ) :=
  (keys tree).filter fun path => path ≠ [] ∧ path.dropLast = directory

def walk (tree : Tree σ β) (up : σ) (current : List σ) (name : σ) : Option (List σ) :=
  if isDir tree current then some (if name = up then current.dropLast else current ++ [name])
  else none

def locate (tree : Tree σ β) (up : σ) (start names : List σ) : Option (List σ) :=
  names.foldlM (walk tree up) start

abbrev Move (σ : Type) := List σ × List σ

def move (tree : Tree σ β) (m : Move σ) : Tree σ β :=
  match get tree m.1 with
  | none => tree
  | some found => put (remove tree m.1) m.2 found

def moveAll (tree : Tree σ β) (moves : List (Move σ)) : Tree σ β :=
  moves.foldl move tree

variable {tree tree' : Tree σ β} {up : σ} {moves : List (Move σ)} {path : List σ}

theorem fileAt_eq_some_iff {bytes : β} :
    fileAt tree path = some bytes ↔ path ≠ [] ∧ get tree path = some (.file bytes) := by
  rw [fileAt, node]
  split_ifs with hroot
  · simp [hroot]
  · rcases get tree path with _ | _ | found <;> simp [hroot]

theorem mem_children {directory : List σ} :
    path ∈ children tree directory ↔ path ∈ keys tree ∧ path ≠ [] ∧ path.dropLast = directory := by
  simp [children]

theorem locate_congr (h : ∀ path, isDir tree' path = isDir tree path) (start names : List σ) :
    locate tree' up start names = locate tree up start names := by
  have hwalk : walk tree' up = walk tree up := by
    funext current name
    rw [walk, walk, h]
  rw [locate, locate, hwalk]

theorem locate_concat (start names : List σ) (name : σ) :
    locate tree up start (names ++ [name]) =
      (locate tree up start names).bind fun current => walk tree up current name := by
  rw [locate, List.foldlM_append]
  simp [locate]

theorem locate_concat_eq_some {start names : List σ} {name : σ}
    (h : locate tree up start (names ++ [name]) = some path) :
    ∃ current, locate tree up start names = some current ∧ isDir tree current = true ∧
      path = if name = up then current.dropLast else current ++ [name] := by
  rw [locate_concat] at h
  obtain ⟨current, hcurrent, hwalk⟩ := Option.bind_eq_some_iff.mp h
  rw [walk] at hwalk
  split_ifs at hwalk with hdir hup
  · exact ⟨current, hcurrent, hdir, by rw [if_pos hup, Option.some.inj hwalk]⟩
  · exact ⟨current, hcurrent, hdir, by rw [if_neg hup, Option.some.inj hwalk]⟩

theorem locate_eq_append {start names : List σ} (hnames : up ∉ names)
    (h : locate tree up start names = some path) : path = start ++ names := by
  induction names using List.reverseRecOn generalizing path with
  | nil =>
      cases h
      rw [List.append_nil]
  | append_singleton names name ih =>
      obtain ⟨current, hcurrent, -, hpath⟩ := locate_concat_eq_some h
      have hname : name ≠ up := by
        rintro rfl
        exact hnames (List.mem_append_right _ (List.mem_singleton_self _))
      rw [hpath, if_neg hname,
        ih (fun hup => hnames (List.mem_append_left _ hup)) hcurrent, List.append_assoc]

/-- Every move takes a file to a place that is free, and no two moves share one. -/
structure Apart (tree : Tree σ β) (moves : List (Move σ)) : Prop where
  sources : (moves.map Prod.fst).Nodup
  destinations : (moves.map Prod.snd).Nodup
  there : ∀ m ∈ moves, ∃ bytes, get tree m.1 = some (.file bytes)
  free : ∀ m ∈ moves, m.2 ≠ [] ∧ get tree m.2 = none

theorem get_move {m : Move σ} {found : Node β} (hfound : get tree m.1 = some found) :
    get (move tree m) path =
      if path = m.2 then some found else if path = m.1 then none else get tree path := by
  rw [move, hfound]
  dsimp only
  rw [get_put, get_remove]

theorem Apart.source_ne_destination (h : Apart tree moves) {m other : Move σ} (hm : m ∈ moves)
    (hother : other ∈ moves) : m.1 ≠ other.2 := by
  intro heq
  obtain ⟨bytes, hfound⟩ := h.there m hm
  rw [heq, (h.free other hother).2] at hfound
  cases hfound

theorem Apart.tail {m : Move σ} (h : Apart tree (m :: moves)) : Apart (move tree m) moves := by
  obtain ⟨bytes, hfound⟩ := h.there m List.mem_cons_self
  have hsources := h.sources
  have hdestinations := h.destinations
  rw [List.map_cons, List.nodup_cons] at hsources hdestinations
  refine ⟨hsources.2, hdestinations.2, ?_, ?_⟩
  · intro other hother
    obtain ⟨bytes', hthere⟩ := h.there other (List.mem_cons_of_mem _ hother)
    refine ⟨bytes', ?_⟩
    have hdestination : other.1 ≠ m.2 :=
      h.source_ne_destination (List.mem_cons_of_mem _ hother) List.mem_cons_self
    have hsource : other.1 ≠ m.1 := fun heq => hsources.1 (heq ▸ List.mem_map_of_mem hother)
    rw [get_move hfound, if_neg hdestination, if_neg hsource, hthere]
  · intro other hother
    obtain ⟨hroot, hfree⟩ := h.free other (List.mem_cons_of_mem _ hother)
    have hdestination : other.2 ≠ m.2 :=
      fun heq => hdestinations.1 (heq ▸ List.mem_map_of_mem hother)
    refine ⟨hroot, ?_⟩
    rw [get_move hfound, if_neg hdestination, hfree]
    split_ifs <;> rfl

theorem Apart.get_other (h : Apart tree moves) (hsource : path ∉ moves.map Prod.fst)
    (hdestination : path ∉ moves.map Prod.snd) : get (moveAll tree moves) path = get tree path := by
  induction moves generalizing tree with
  | nil => rfl
  | cons m moves ih =>
      obtain ⟨bytes, hfound⟩ := h.there m List.mem_cons_self
      rw [List.map_cons, List.mem_cons, not_or] at hsource hdestination
      change get (moveAll (move tree m) moves) path = _
      rw [ih h.tail hsource.2 hdestination.2, get_move hfound, if_neg hdestination.1,
        if_neg hsource.1]

theorem Apart.get_destination (h : Apart tree moves) {m : Move σ} (hm : m ∈ moves) :
    get (moveAll tree moves) m.2 = get tree m.1 := by
  induction moves generalizing tree with
  | nil => cases hm
  | cons first moves ih =>
      obtain ⟨bytes, hfound⟩ := h.there first List.mem_cons_self
      have hsources := h.sources
      have hdestinations := h.destinations
      rw [List.map_cons, List.nodup_cons] at hsources hdestinations
      change get (moveAll (move tree first) moves) m.2 = _
      rcases List.mem_cons.mp hm with rfl | hrest
      · have hsource : m.2 ∉ moves.map Prod.fst := by
          intro hmem
          obtain ⟨other, hother, heq⟩ := List.mem_map.mp hmem
          exact h.source_ne_destination (List.mem_cons_of_mem _ hother) List.mem_cons_self heq
        rw [h.tail.get_other hsource hdestinations.1, get_move hfound, if_pos rfl, hfound]
      · have hsource : m.1 ≠ first.1 := fun heq => hsources.1 (heq ▸ List.mem_map_of_mem hrest)
        have hdestination : m.1 ≠ first.2 := h.source_ne_destination hm List.mem_cons_self
        rw [ih h.tail hrest, get_move hfound, if_neg hdestination, if_neg hsource]

theorem Apart.get_source (h : Apart tree moves) {m : Move σ} (hm : m ∈ moves) :
    get (moveAll tree moves) m.1 = none := by
  induction moves generalizing tree with
  | nil => cases hm
  | cons first moves ih =>
      obtain ⟨bytes, hfound⟩ := h.there first List.mem_cons_self
      have hsources := h.sources
      rw [List.map_cons, List.nodup_cons] at hsources
      change get (moveAll (move tree first) moves) m.1 = _
      rcases List.mem_cons.mp hm with rfl | hrest
      · have hnowhere : m.1 ∉ moves.map Prod.snd := by
          intro hmem
          obtain ⟨other, hother, heq⟩ := List.mem_map.mp hmem
          exact h.source_ne_destination hm (List.mem_cons_of_mem _ hother) heq.symm
        rw [h.tail.get_other hsources.1 hnowhere, get_move hfound,
          if_neg (h.source_ne_destination hm hm), if_pos rfl]
      · exact ih h.tail hrest

theorem Apart.isDir_moveAll (h : Apart tree moves) (path : List σ) :
    isDir (moveAll tree moves) path = isDir tree path := by
  rw [isDir, isDir, node, node]
  split_ifs with hroot
  · rfl
  by_cases hdestination : path ∈ moves.map Prod.snd
  · obtain ⟨m, hm, rfl⟩ := List.mem_map.mp hdestination
    obtain ⟨bytes, hfound⟩ := h.there m hm
    rw [h.get_destination hm, hfound, (h.free m hm).2]
  by_cases hsource : path ∈ moves.map Prod.fst
  · obtain ⟨m, hm, rfl⟩ := List.mem_map.mp hsource
    obtain ⟨bytes, hfound⟩ := h.there m hm
    rw [h.get_source hm, hfound]
  · rw [h.get_other hsource hdestination]

theorem Apart.locate_moveAll (h : Apart tree moves) (start names : List σ) :
    locate (moveAll tree moves) up start names = locate tree up start names :=
  locate_congr h.isDir_moveAll start names

theorem Apart.fileAt_moveAll (h : Apart tree moves) {bytes : β}
    (hfile : fileAt tree path = some bytes) :
    fileAt (moveAll tree moves) path = some bytes ↔ path ∉ moves.map Prod.fst := by
  obtain ⟨hroot, hget⟩ := fileAt_eq_some_iff.mp hfile
  constructor
  · intro hkept hsource
    obtain ⟨m, hm, rfl⟩ := List.mem_map.mp hsource
    have hget' := (fileAt_eq_some_iff.mp hkept).2
    rw [h.get_source hm] at hget'
    cases hget'
  · intro hsource
    have hdestination : path ∉ moves.map Prod.snd := by
      intro hmem
      obtain ⟨m, hm, rfl⟩ := List.mem_map.mp hmem
      rw [(h.free m hm).2] at hget
      cases hget
    exact fileAt_eq_some_iff.mpr ⟨hroot, by rw [h.get_other hsource hdestination, hget]⟩

theorem Apart.fileAt_destination (h : Apart tree moves) {m : Move σ} (hm : m ∈ moves) {bytes : β}
    (hfile : fileAt tree m.1 = some bytes) : fileAt (moveAll tree moves) m.2 = some bytes :=
  fileAt_eq_some_iff.mpr
    ⟨(h.free m hm).1, by rw [h.get_destination hm, (fileAt_eq_some_iff.mp hfile).2]⟩

end ShortReel.FileTrees
