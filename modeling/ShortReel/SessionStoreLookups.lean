import ShortReel.SessionBranch

/-!
# Lookups in the session stores

What each access of a call of `branch` leaves at every session.
-/

namespace ShortReel.SessionStoreLookups

open InsertionDict PrefixFork SessionBranch

section Transcripts

variable {store : TranscriptStore} {id other : SessionId} {subpath : Subpath} {entries rows : List Entry}

def Distinct (entries : List Entry) : Prop :=
  entries.Pairwise fun first second => first.entryUuid.isSome → first.entryUuid ≠ second.entryUuid

instance (entries : List Entry) : Decidable (Distinct entries) :=
  inferInstanceAs (Decidable (List.Pairwise _ entries))

theorem appendRows_distinct (h : Distinct (rows ++ entries)) :
    appendRows rows entries = rows ++ entries := by
  induction entries generalizing rows with
  | nil => exact (List.append_nil rows).symm
  | cons entry entries ih =>
      have hsplit : rows ++ entry :: entries = rows ++ [entry] ++ entries := by
        rw [List.append_assoc, List.singleton_append]
      have hnew : ¬ (entry.entryUuid.isSome ∧ ∃ row ∈ rows, row.entryUuid = entry.entryUuid) := by
        rintro ⟨hsome, row, hrow, hsame⟩
        have hne := (List.pairwise_append.mp h).2.2 row hrow entry List.mem_cons_self
        exact hne (hsame ▸ hsome) hsame
      rw [appendRows, List.foldl_cons, if_neg hnew, hsplit]
      exact ih (hsplit ▸ h)

theorem load_append (hentries : entries ≠ []) (hfresh : store.load id subpath = none)
    (hdistinct : Distinct entries) (sub : Subpath) :
    (store.append id subpath entries).load other sub =
      if other = id ∧ sub = subpath then some entries else store.load other sub := by
  unfold TranscriptStore.append
  rw [if_neg hentries]
  unfold TranscriptStore.load
  dsimp only
  by_cases hsame : other = id ∧ sub = subpath
  · obtain ⟨rfl, rfl⟩ := hsame
    have hnone : get store.rows (other, sub) = none := hfresh
    rw [if_pos ⟨rfl, rfl⟩, get_put_self, hnone]
    exact congrArg some (appendRows_distinct hdistinct)
  · rw [if_neg hsame]
    exact get_put_ne fun heq => hsame (Prod.mk.inj heq)

theorem load_append_ne (hne : other ≠ id) (sub : Subpath) :
    (store.append id subpath entries).load other sub = store.load other sub := by
  unfold TranscriptStore.append
  by_cases hempty : entries = []
  · rw [if_pos hempty]
  · rw [if_neg hempty]
    exact get_put_ne fun heq => hne (Prod.mk.inj heq).1

theorem mem_summaries_append (hne : other ≠ id) :
    other ∈ (store.append id subpath entries).summaries ↔ other ∈ store.summaries := by
  unfold TranscriptStore.append
  by_cases hempty : entries = []
  · rw [if_pos hempty]
  · rw [if_neg hempty]
    dsimp only
    by_cases hmain : subpath = [] ∧ id ∉ store.summaries
    · rw [if_pos hmain, List.mem_append, List.mem_singleton, or_iff_left hne]
    · rw [if_neg hmain]

theorem listSubkeys_append (hne : other ≠ id) :
    (store.append id subpath entries).listSubkeys other = store.listSubkeys other := by
  unfold TranscriptStore.append
  by_cases hempty : entries = []
  · rw [if_pos hempty]
  · rw [if_neg hempty]
    unfold TranscriptStore.listSubkeys
    dsimp only
    rw [keys_put]
    split_ifs
    · rfl
    · rw [List.filter_append]
      have hnot : ¬ (id = other ∧ subpath ≠ []) := fun h => hne h.1.symm
      simp [hnot]

theorem load_delete (sub : Subpath) :
    (store.delete id).load other sub = if other = id then none else store.load other sub := by
  unfold TranscriptStore.delete TranscriptStore.load
  dsimp only
  by_cases hsame : other = id
  · rw [if_pos hsame, hsame]
    refine get_eq_none_iff.mpr fun hmem => ?_
    obtain ⟨item, hitem, hkey⟩ := List.mem_map.mp hmem
    have hne := of_decide_eq_true (List.mem_filter.mp hitem).2
    exact hne (congrArg Prod.fst hkey)
  · rw [if_neg hsame]
    unfold InsertionDict.get
    rw [List.find?_filter]
    congr 2
    funext item
    by_cases hkey : item.1 = (other, sub)
    · simp [hkey, hsame]
    · simp [hkey]

theorem mem_summaries_delete :
    other ∈ (store.delete id).summaries ↔ other ∈ store.summaries ∧ other ≠ id := by
  unfold TranscriptStore.delete
  rw [List.mem_filter, decide_eq_true_iff]

theorem listSubkeys_delete (hne : other ≠ id) :
    (store.delete id).listSubkeys other = store.listSubkeys other := by
  unfold TranscriptStore.listSubkeys TranscriptStore.delete keys
  dsimp only
  rw [List.filter_map, List.filter_map, List.filter_filter]
  congr 2
  refine List.filter_congr fun item _ => ?_
  by_cases hkey : item.1.1 = other
  · simp [hkey, hne]
  · simp [hkey]

theorem mem_listSubkeys :
    subpath ∈ store.listSubkeys id ↔ subpath ≠ [] ∧ store.load id subpath ≠ none := by
  unfold TranscriptStore.listSubkeys TranscriptStore.load
  rw [List.mem_map, Ne, Ne, get_eq_none_iff, not_not]
  constructor
  · rintro ⟨⟨session, sub⟩, hkey, rfl⟩
    obtain ⟨hmem, hboth⟩ := List.mem_filter.mp hkey
    obtain ⟨rfl, hsub⟩ := of_decide_eq_true hboth
    exact ⟨hsub, hmem⟩
  · rintro ⟨hsub, hmem⟩
    exact ⟨(id, subpath), List.mem_filter.mpr ⟨hmem, decide_eq_true ⟨rfl, hsub⟩⟩, rfl⟩

theorem nodup_listSubkeys (h : (keys store.rows).Nodup) : (store.listSubkeys id).Nodup := by
  refine List.Nodup.map_on ?_ (h.filter _)
  intro first hfirst second hsecond heq
  have hid := (of_decide_eq_true (List.mem_filter.mp hfirst).2).1
  have hid' := (of_decide_eq_true (List.mem_filter.mp hsecond).2).1
  exact Prod.ext (hid.trans hid'.symm) heq

end Transcripts

section Metadata

variable {stores : Stores} {id other : SessionId}

theorem get_repoint (guard : SessionId → AgentSession → Bool) (value : Option SessionId) :
    get (stores.repoint guard value).sessions id = (get stores.sessions id).map fun row =>
      if guard id row then { row with supersededBy := value } else row := by
  unfold Stores.repoint InsertionDict.get
  dsimp only
  induction stores.sessions with
  | nil => rfl
  | cons item items ih =>
      rw [List.map_cons, List.find?_cons, List.find?_cons]
      by_cases hkey : item.1 = id
      · rw [decide_eq_true hkey, hkey]
        rfl
      · rw [decide_eq_false hkey]
        exact ih

theorem pointer_repoint (guard : SessionId → AgentSession → Bool) (value : Option SessionId)
    {row : AgentSession} (hrow : get stores.sessions id = some row) :
    (stores.repoint guard value).pointer id =
      if guard id row then value else stores.pointer id := by
  unfold Stores.pointer
  rw [get_repoint, hrow]
  rw [Option.map_some, Option.bind_some, Option.bind_some]
  split_ifs <;> rfl

theorem get_create (projectName : String) (parent : SessionId) (anchor : String) :
    get (stores.create projectName id parent anchor).sessions other =
      if other = id then some ⟨projectName, none, some parent, some anchor⟩
      else get stores.sessions other := by
  unfold Stores.create
  by_cases hsame : other = id
  · rw [if_pos hsame, hsame]
    exact get_put_self
  · rw [if_neg hsame]
    exact get_put_ne hsame

theorem get_deleteSession :
    get (stores.deleteSession id).sessions other =
      if other = id then none
      else (get stores.sessions other).map fun row =>
        if row.supersededBy = some id then { row with supersededBy := stores.pointer id } else row := by
  unfold Stores.deleteSession
  dsimp only
  rw [get_remove, get_repoint]
  simp only [decide_eq_true_eq]

end Metadata

end ShortReel.SessionStoreLookups
