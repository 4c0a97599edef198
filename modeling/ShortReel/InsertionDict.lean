import Mathlib.Data.List.Induction
import Mathlib.Data.List.Nodup

/-!
# Dictionaries in order of insertion

A dictionary is the list of its items. An item that is put under a key that is there takes its place.
-/

namespace ShortReel.InsertionDict

variable {κ ν : Type} [DecidableEq κ]

abbrev Dict (κ ν : Type) := List (κ × ν)

def keys (dict : Dict κ ν) : List κ :=
  dict.map Prod.fst

def get (dict : Dict κ ν) (key : κ) : Option ν :=
  (dict.find? fun item => item.1 = key).map Prod.snd

def put (dict : Dict κ ν) (key : κ) (value : ν) : Dict κ ν :=
  if key ∈ keys dict then dict.map fun item => if item.1 = key then (key, value) else item
  else dict ++ [(key, value)]

def putSome (dict : Dict κ ν) (key : κ) : Option ν → Dict κ ν
  | none => dict
  | some value => put dict key value

def remove (dict : Dict κ ν) (key : κ) : Dict κ ν :=
  dict.filter fun item => item.1 ≠ key

def ofItems (items : List (κ × ν)) : Dict κ ν :=
  items.foldl (fun dict item => put dict item.1 item.2) []

variable {dict : Dict κ ν} {key other : κ} {value : ν} {items : List (κ × ν)}

theorem get_isSome_iff : (get dict key).isSome = true ↔ key ∈ keys dict := by
  unfold get keys
  rw [Option.isSome_map, List.find?_isSome, List.mem_map]
  refine exists_congr fun item => and_congr_right fun _ => ?_
  rw [decide_eq_true_iff]

theorem get_eq_none_iff : get dict key = none ↔ key ∉ keys dict := by
  rw [← get_isSome_iff, Option.not_isSome_iff_eq_none]

theorem get_eq_some_of_mem (hkeys : (keys dict).Nodup) (hmem : (key, value) ∈ dict) :
    get dict key = some value := by
  induction dict with
  | nil => cases hmem
  | cons item dict ih =>
      obtain ⟨hfresh, hkeys⟩ := List.nodup_cons.mp hkeys
      unfold get
      rw [List.find?_cons]
      rcases List.mem_cons.mp hmem with rfl | hrest
      · rw [decide_eq_true rfl]
        rfl
      · have hne : item.1 ≠ key := fun hsame => hfresh (hsame ▸ List.mem_map_of_mem hrest)
        rw [decide_eq_false hne]
        exact ih hkeys hrest

theorem mem_of_get (h : get dict key = some value) : (key, value) ∈ dict := by
  obtain ⟨item, hitem, rfl⟩ := Option.map_eq_some_iff.mp h
  have hsame := List.find?_some hitem
  rw [← of_decide_eq_true hsame]
  exact List.mem_of_find?_eq_some hitem

theorem keys_put : keys (put dict key value) =
    if key ∈ keys dict then keys dict else keys dict ++ [key] := by
  unfold put
  split_ifs
  · unfold keys
    rw [List.map_map]
    refine List.map_congr_left fun item _ => ?_
    by_cases hsame : item.1 = key
    · rw [Function.comp_apply, if_pos hsame, hsame]
    · rw [Function.comp_apply, if_neg hsame]
  · exact List.map_append

theorem mem_keys_put : other ∈ keys (put dict key value) ↔ other ∈ keys dict ∨ other = key := by
  rw [keys_put]
  split_ifs with hmem
  · exact ⟨Or.inl, fun h => h.elim id fun hsame => hsame ▸ hmem⟩
  · rw [List.mem_append, List.mem_singleton]

theorem nodup_put (hkeys : (keys dict).Nodup) : (keys (put dict key value)).Nodup := by
  rw [keys_put]
  split_ifs with hmem
  · exact hkeys
  · exact List.nodup_append.mpr ⟨hkeys, List.nodup_singleton key, fun a ha b hb hsame =>
      hmem (List.mem_singleton.mp hb ▸ hsame ▸ ha)⟩

theorem get_put_self : get (put dict key value) key = some value := by
  unfold put
  split_ifs with hmem
  · induction dict with
    | nil => cases hmem
    | cons item dict ih =>
        unfold get
        rw [List.map_cons, List.find?_cons]
        by_cases hsame : item.1 = key
        · rw [if_pos hsame, decide_eq_true rfl]
          rfl
        · rw [if_neg hsame, decide_eq_false hsame]
          exact ih ((List.mem_cons.mp hmem).resolve_left fun h => hsame h.symm)
  · have hnone : dict.find? (fun item => item.1 = key) = none :=
      Option.map_eq_none_iff.mp (get_eq_none_iff.mpr hmem)
    unfold get
    rw [List.find?_append, hnone, Option.none_or, List.find?_singleton, if_pos (decide_eq_true rfl)]
    rfl

theorem get_put_ne (hne : other ≠ key) : get (put dict key value) other = get dict other := by
  unfold put
  split_ifs with hmem
  · clear hmem
    induction dict with
    | nil => rfl
    | cons item dict ih =>
        unfold get at ih ⊢
        rw [List.map_cons, List.find?_cons, List.find?_cons]
        by_cases hsame : item.1 = key
        · have hkey : ¬ key = other := fun h => hne h.symm
          rw [if_pos hsame, hsame, decide_eq_false hkey]
          exact ih
        · rw [if_neg hsame]
          cases decide (item.1 = other) with
          | true => rfl
          | false => exact ih
  · have hkey : ¬ key = other := fun h => hne h.symm
    unfold get
    rw [List.find?_append, List.find?_singleton, if_neg (fun h => hkey (of_decide_eq_true h)),
      Option.or_none]

theorem ofItems_concat (items : List (κ × ν)) (item : κ × ν) :
    ofItems (items ++ [item]) = put (ofItems items) item.1 item.2 :=
  List.foldl_concat _ _ _ _

theorem mem_put {item : κ × ν} (hmem : item ∈ put dict key value) :
    item = (key, value) ∨ item ∈ dict := by
  unfold put at hmem
  split_ifs at hmem
  · obtain ⟨old, hold, rfl⟩ := List.mem_map.mp hmem
    split_ifs
    · exact Or.inl rfl
    · exact Or.inr hold
  · exact (List.mem_append.mp hmem).symm.imp_left List.mem_singleton.mp

theorem mem_keys_ofItems : key ∈ keys (ofItems items) ↔ key ∈ keys items := by
  induction items using List.reverseRecOn with
  | nil => exact Iff.rfl
  | append_singleton items item ih =>
      unfold keys at ih
      rw [ofItems_concat, mem_keys_put, keys, keys, List.map_append, List.mem_append, ih,
        List.map_singleton, List.mem_singleton]

theorem nodup_ofItems : (keys (ofItems items)).Nodup := by
  induction items using List.reverseRecOn with
  | nil => exact List.nodup_nil
  | append_singleton items item ih =>
      rw [ofItems_concat]
      exact nodup_put ih

theorem ofItems_of_nodup (hkeys : (keys items).Nodup) : ofItems items = items := by
  induction items using List.reverseRecOn with
  | nil => rfl
  | append_singleton items item ih =>
      rw [keys, List.map_append, List.nodup_append] at hkeys
      obtain ⟨hfront, -, hfresh⟩ := hkeys
      have hnot : item.1 ∉ keys items := fun hmem =>
        hfresh item.1 hmem item.1 (List.mem_singleton.mpr rfl) rfl
      rw [ofItems_concat, ih hfront, put, if_neg hnot]

theorem mem_of_mem_ofItems {item : κ × ν} (hmem : item ∈ ofItems items) : item ∈ items := by
  induction items using List.reverseRecOn with
  | nil => exact hmem
  | append_singleton items last ih =>
      rw [ofItems_concat] at hmem
      rcases mem_put hmem with rfl | hmem
      · exact List.mem_append_right _ (List.mem_singleton.mpr rfl)
      · exact List.mem_append_left _ (ih hmem)

theorem put_of_notMem (hmem : key ∉ keys dict) : put dict key value = dict ++ [(key, value)] :=
  if_neg hmem

theorem foldl_put {names : List κ} {f : κ → Option ν} (hnodup : names.Nodup)
    (hfresh : ∀ name ∈ names, name ∉ keys dict) :
    names.foldl (fun dict name => putSome dict name (f name)) dict =
      dict ++ names.filterMap fun name => (f name).map (name, ·) := by
  induction names generalizing dict with
  | nil => exact (List.append_nil dict).symm
  | cons name names ih =>
      obtain ⟨hname, hnodup⟩ := List.nodup_cons.mp hnodup
      obtain ⟨hnew, hfresh⟩ := List.forall_mem_cons.mp hfresh
      rw [List.foldl_cons, List.filterMap_cons]
      cases hvalue : f name with
      | none => exact ih hnodup hfresh
      | some value =>
          rw [putSome, put_of_notMem hnew, ih hnodup fun other hother => ?_, List.append_assoc]
          · rfl
          · rw [keys, List.map_append, List.mem_append]
            rintro (hold | hsame)
            · exact hfresh other hother hold
            · obtain rfl := List.mem_singleton.mp hsame
              exact hname hother

theorem get_append (dict adds : Dict κ ν) (key : κ) :
    get (dict ++ adds) key = (get dict key).or (get adds key) := by
  unfold get
  rw [List.find?_append]
  cases dict.find? fun item => decide (item.1 = key) with
  | none => rfl
  | some item => rfl

theorem get_remove_ne (hne : other ≠ key) : get (remove dict key) other = get dict other := by
  unfold get remove
  rw [List.find?_filter]
  congr 2
  funext item
  by_cases hsame : item.1 = other
  · simp [hsame, hne]
  · simp [hsame]

theorem mem_remove {item : κ × ν} : item ∈ remove dict key ↔ item ∈ dict ∧ item.1 ≠ key := by
  unfold remove
  rw [List.mem_filter, decide_eq_true_iff]

theorem get_remove_self : get (remove dict key) key = none := by
  refine get_eq_none_iff.mpr fun hmem => ?_
  obtain ⟨item, hitem, hkey⟩ := List.mem_map.mp hmem
  exact (mem_remove.mp hitem).2 hkey

theorem get_put : get (put dict key value) other = if other = key then some value else get dict other := by
  by_cases hsame : other = key
  · rw [if_pos hsame, hsame, get_put_self]
  · rw [if_neg hsame, get_put_ne hsame]

theorem get_remove : get (remove dict key) other = if other = key then none else get dict other := by
  by_cases hsame : other = key
  · rw [if_pos hsame, hsame, get_remove_self]
  · rw [if_neg hsame, get_remove_ne hsame]

theorem nodup_remove (hkeys : (keys dict).Nodup) : (keys (remove dict key)).Nodup :=
  hkeys.sublist (List.filter_sublist.map Prod.fst)

section Sorting

variable {μ : Type} {dict₂ : Dict κ ν}

theorem get_perm (hkeys : (keys dict).Nodup) (hperm : dict.Perm dict₂) :
    get dict key = get dict₂ key := by
  have hkeys₂ : (keys dict₂).Nodup := (hperm.map Prod.fst).nodup_iff.mp hkeys
  cases hget : get dict key with
  | none =>
      have hmem : key ∉ keys dict₂ := fun hmem =>
        get_eq_none_iff.mp hget ((hperm.map Prod.fst).mem_iff.mpr hmem)
      exact (get_eq_none_iff.mpr hmem).symm
  | some value => exact (get_eq_some_of_mem hkeys₂ (hperm.mem_iff.mp (mem_of_get hget))).symm

theorem get_map (f : κ → ν → μ) (dict : Dict κ ν) (key : κ) :
    get (dict.map fun item => (item.1, f item.1 item.2)) key = (get dict key).map (f key) := by
  induction dict with
  | nil => rfl
  | cons item dict ih =>
      unfold get at ih ⊢
      rw [List.map_cons, List.find?_cons, List.find?_cons]
      by_cases hkey : item.1 = key
      · simp [hkey]
      · rw [decide_eq_false hkey]
        exact ih

omit [DecidableEq κ] in
theorem keys_map (f : κ → ν → μ) :
    keys (dict.map fun item => (item.1, f item.1 item.2)) = keys dict := by
  rw [keys, keys, List.map_map]
  rfl

end Sorting

end ShortReel.InsertionDict
