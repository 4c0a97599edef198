import Mathlib.Data.List.ReduceOption
import ShortReel.OrderEdits
import ShortReel.TimelineOperations
import ShortReel.TransitionSystem

/-!
# Finding and rewriting clips

The two things an operation does to the main track: it finds clips by id, as targets and as
anchors, and it rewrites clips in place.
-/

namespace ShortReel.TimelineTrack

open OrderEdits TimelineModel TimelineOperations

def clipIds (clips : List EditClip) : List ClipId :=
  clips.map (·.id)

@[simp]
theorem clipIds_nil : clipIds [] = [] := rfl

@[simp]
theorem clipIds_cons (clip : EditClip) (clips : List EditClip) :
    clipIds (clip :: clips) = clip.id :: clipIds clips := rfl

@[simp]
theorem clipIds_append (front back : List EditClip) :
    clipIds (front ++ back) = clipIds front ++ clipIds back :=
  List.map_append

theorem mem_clipIds {clips : List EditClip} {id : ClipId} :
    id ∈ clipIds clips ↔ ∃ clip ∈ clips, clip.id = id :=
  List.mem_map

theorem id_mem_clipIds {clips : List EditClip} {clip : EditClip} (h : clip ∈ clips) :
    clip.id ∈ clipIds clips :=
  List.mem_map_of_mem h

theorem locate_eq_some {α : Type} {idOf : α → ClipId} {items : List α} {id : ClipId}
    {position : ℕ} {item : α} (h : locate idOf items id = some (position, item)) :
    ∃ front back, items = front ++ item :: back ∧ position = front.length ∧ idOf item = id ∧
      ∀ other ∈ front, idOf other ≠ id := by
  induction items generalizing position with
  | nil => cases h
  | cons first rest ih =>
      simp only [locate] at h
      split at h
      · rename_i hid
        cases h
        exact ⟨[], rest, rfl, rfl, hid, by simp⟩
      · rename_i hid
        obtain ⟨⟨below, found⟩, hfound, heq⟩ := Option.map_eq_some_iff.mp h
        cases heq
        obtain ⟨front, back, rfl, rfl, hitem, hfront⟩ := ih hfound
        exact ⟨first :: front, back, rfl, rfl, hitem, by simpa [hid] using hfront⟩

structure Found (clips : List EditClip) (id : ClipId) (position : ℕ) (clip : EditClip)
    (front back : List EditClip) : Prop where
  split : clips = front ++ clip :: back
  position : position = front.length
  clip_id : clip.id = id
  first : ∀ other ∈ front, other.id ≠ id

section Found

variable {clips front back : List EditClip} {id : ClipId} {position : ℕ} {clip : EditClip}

theorem Found.notMem_front (found : Found clips id position clip front back) :
    id ∉ clipIds front := by
  intro hmem
  obtain ⟨other, hother, hid⟩ := mem_clipIds.mp hmem
  exact found.first other hother hid

theorem Found.mem (found : Found clips id position clip front back) : clip ∈ clips := by
  simp [found.split]

theorem Found.eraseIdx (found : Found clips id position clip front back) :
    clips.eraseIdx position = front ++ back := by
  rw [found.split, found.position, List.eraseIdx_append_of_length_le (le_refl _)]
  simp

theorem Found.clipIds_eraseIdx (found : Found clips id position clip front back) :
    clipIds (clips.eraseIdx position) = (clipIds clips).erase id := by
  rw [found.eraseIdx, found.split, clipIds_append, clipIds_append, clipIds_cons, found.clip_id,
    List.erase_append_right _ found.notMem_front, List.erase_cons_head]

end Found

open TimelineOperations.Batch

variable {index : ℕ} {sources : EpisodeSources} {batch result : Batch}

theorem position_ok {clipId : ClipId} {field : String} {position : ℕ} {clip : EditClip}
    (h : batch.position index clipId field = .ok (result, position, clip)) :
    result = batch.refer clipId (field = "clip") ∧
      ∃ front back, Found batch.clips clipId position clip front back := by
  unfold TimelineOperations.Batch.position at h
  split at h
  · rename_i found hfound
    cases h
    obtain ⟨front, back, hsplit, hposition, hid, hfirst⟩ := locate_eq_some hfound
    exact ⟨rfl, front, back, hsplit, hposition, hid, hfirst⟩
  · cases h

theorem bgmPosition_ok {clipId : ClipId} {position : ℕ} {clip : BgmClip}
    (h : batch.bgmPosition index clipId = .ok (result, position, clip)) :
    result = batch.refer clipId true ∧
      ∃ front back, batch.bgm = front ++ clip :: back ∧ position = front.length ∧
        clip.id = clipId := by
  unfold TimelineOperations.Batch.bgmPosition at h
  split at h
  · rename_i found hfound
    cases h
    obtain ⟨front, back, hsplit, hposition, hid, -⟩ := locate_eq_some hfound
    exact ⟨rfl, front, back, hsplit, hposition, hid⟩
  · cases h

theorem insertionPoint_ok {after : Option ClipId} {position : ℕ}
    (h : batch.insertionPoint index after = .ok (result, position)) :
    (∃ referenced, result = { batch with referenced := referenced } ∧
      ∀ id, id ∈ referenced ↔ id ∈ batch.referenced ∨ id ∈ after) ∧
      (∀ anchor ∈ after, anchor ∈ clipIds batch.clips) ∧
      ∃ front back, batch.clips = front ++ back ∧ position = front.length ∧
        ∀ clip : EditClip, clipIds (front ++ clip :: back) =
          insertBehind clip.id after (clipIds batch.clips) := by
  cases after with
  | none =>
      cases h
      exact ⟨⟨batch.referenced, rfl, by simp⟩, by simp, [], batch.clips, rfl, rfl,
        fun _ => by simp [insertBehind]⟩
  | some anchor =>
      simp only [insertionPoint] at h
      obtain ⟨⟨named, at_, clip⟩, hposition, heq⟩ := bind_eq_ok.mp h
      cases heq
      obtain ⟨rfl, front, back, found⟩ := position_ok hposition
      have hmem : anchor ∈ clipIds batch.clips := found.clip_id ▸ id_mem_clipIds found.mem
      refine ⟨⟨batch.referenced.insert anchor, by simp [refer], ?_⟩, by simpa using hmem,
        front ++ [clip], back, by simp [found.split], by simp [found.position], ?_⟩
      · intro id
        simp [List.mem_insert_iff, or_comm, eq_comm]
      · intro inserted
        rw [found.split]
        simp only [clipIds_append, clipIds_cons, List.append_assoc, List.cons_append,
          List.nil_append, found.clip_id]
        rw [insertBehind_split _ found.notMem_front]

def KeepsIdentity (rewrite : ℕ → EditClip → EditClip) : Prop :=
  ∀ position clip, (rewrite position clip).number = clip.number ∧
    (rewrite position clip).unitId = clip.unitId

theorem mem_rewrittenIds {rewrite : ℕ → EditClip → EditClip} {clips : List EditClip}
    {id : ClipId} :
    id ∈ rewrittenIds rewrite clips ↔
      ∃ position clip, clips[position]? = some clip ∧ rewrite position clip ≠ clip ∧
        clip.id = id := by
  simp only [rewrittenIds, List.reduceOption_mem_iff, List.mem_mapIdx]
  constructor
  · rintro ⟨position, hlt, heq⟩
    split at heq
    · cases heq
    · rename_i hchanged
      exact ⟨position, clips[position], by simp, hchanged, by simpa using heq⟩
  · rintro ⟨position, clip, hclip, hchanged, rfl⟩
    obtain ⟨hlt, rfl⟩ := List.getElem?_eq_some_iff.mp hclip
    exact ⟨position, hlt, by simp [hchanged]⟩

theorem mem_foldl_insert {ids : List ClipId} {last : LastOperation} {id : ClipId} :
    id ∈ ids.foldl (fun last id => last.insert id index) last ↔ id ∈ last ∨ id ∈ ids := by
  induction ids generalizing last with
  | nil => simp
  | cons first rest ih =>
      rw [List.foldl_cons, ih, AList.mem_insert, List.mem_cons]
      tauto

theorem mem_rewriteClips_lastOperation {rewrite : ℕ → EditClip → EditClip} {id : ClipId} :
    id ∈ (batch.rewriteClips index rewrite).lastOperation ↔
      id ∈ batch.lastOperation ∨ id ∈ rewrittenIds rewrite batch.clips :=
  mem_foldl_insert

theorem rewrite_eq_self {rewrite : ℕ → EditClip → EditClip} {position : ℕ} {clip : EditClip}
    (hclip : batch.clips[position]? = some clip)
    (hid : clip.id ∉ (batch.rewriteClips index rewrite).lastOperation) :
    rewrite position clip = clip := by
  by_contra hchanged
  exact hid (mem_rewriteClips_lastOperation.mpr
    (Or.inr (mem_rewrittenIds.mpr ⟨position, clip, hclip, hchanged, rfl⟩)))

theorem filter_mapIdx {α : Type} {items : List α} {rewrite : ℕ → α → α} {keep : α → Bool}
    (h : ∀ position item, items[position]? = some item →
      keep (rewrite position item) = keep item ∧
        (keep item = true → rewrite position item = item)) :
    (items.mapIdx rewrite).filter keep = items.filter keep := by
  induction items generalizing rewrite with
  | nil => rfl
  | cons first rest ih =>
      obtain ⟨hkeep, hsame⟩ := h 0 first rfl
      have ih := @ih (fun position => rewrite (position + 1))
        fun position item hitem => h (position + 1) item (by simpa using hitem)
      rw [List.mapIdx_cons, List.filter_cons, List.filter_cons, ih, hkeep]
      split
      · rename_i hfirst
        rw [hsame hfirst]
      · rfl

theorem clipIds_mapIdx {rewrite : ℕ → EditClip → EditClip} (hkeeps : KeepsIdentity rewrite)
    (clips : List EditClip) : clipIds (clips.mapIdx rewrite) = clipIds clips := by
  apply List.ext_getElem?
  intro position
  simp only [clipIds, List.getElem?_map, List.getElem?_mapIdx, Option.map_map]
  congr 1
  funext clip
  simp [EditClip.id, (hkeeps position clip).1]

end ShortReel.TimelineTrack
