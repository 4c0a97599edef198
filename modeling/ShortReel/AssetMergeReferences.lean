import ShortReel.AssetMerge
import ShortReel.TransitionSystem

/-!
# References behind a merge

When the assets of a project have names of their own, each reference that a merge rewrites names an
asset or a derivative of the merged project, and those of a derivative name what it has become.
-/

namespace ShortReel.AssetMerge

open InsertionDict ReferenceCatalog
open SourceAlignment (Text)

variable (forms : NameForms)

section Buckets

variable {α : Type}

theorem mem_keys_referenceBucket {bucket : Dict Text α} {key : Text} :
    key ∈ keys (referenceBucket forms bucket) ↔
      ∃ name ∈ keys bucket, assetNameComparisonKey forms name = key := by
  have hfirst : ∀ name, name ∈ keys (normalizeAssetBucket forms bucket) ↔
      ∃ old ∈ keys bucket, forms.nfc old = name := by
    intro name
    unfold normalizeAssetBucket
    rw [mem_keys_ofItems, keys, List.map_map, List.mem_map, keys]
    simp only [List.mem_map, Function.comp_apply]
    constructor
    · rintro ⟨item, hitem, rfl⟩
      exact ⟨item.1, ⟨item, hitem, rfl⟩, rfl⟩
    · rintro ⟨old, ⟨item, hitem, rfl⟩, rfl⟩
      exact ⟨item, hitem, rfl⟩
  unfold referenceBucket
  rw [mem_keys_ofItems, keys, List.map_map, List.mem_map]
  constructor
  · rintro ⟨item, hitem, rfl⟩
    obtain ⟨old, hold, hnfc⟩ := (hfirst item.1).mp (List.mem_map_of_mem hitem)
    refine ⟨old, hold, ?_⟩
    rw [Function.comp_apply, ← hnfc, key_nfc]
  · rintro ⟨old, hold, rfl⟩
    obtain ⟨item, hitem, hsame⟩ := List.mem_map.mp ((hfirst _).mpr ⟨old, hold, rfl⟩)
    refine ⟨item, hitem, ?_⟩
    rw [Function.comp_apply, hsame, key_nfc]

theorem referenceBucket_append {table adds : Dict Text α}
    (hnodup : (adds.map fun item => assetNameComparisonKey forms item.1).Nodup)
    (hfresh : ∀ item ∈ adds, ∀ name ∈ keys table,
      assetNameComparisonKey forms name ≠ assetNameComparisonKey forms item.1) :
    referenceBucket forms (table ++ adds) =
      referenceBucket forms table ++
        adds.map fun item => (assetNameComparisonKey forms item.1, item.2) := by
  induction adds using List.reverseRecOn with
  | nil => rw [List.append_nil, List.map_nil, List.append_nil]
  | append_singleton adds item ih =>
      rw [List.map_append, List.nodup_append] at hnodup
      obtain ⟨hfront, -, hlast⟩ := hnodup
      have hrest := ih hfront fun other hother => hfresh other (List.mem_append_left _ hother)
      -- the last name differs from all in front of it, in NFC as well
      have hkey : ∀ name ∈ keys (table ++ adds),
          assetNameComparisonKey forms name ≠ assetNameComparisonKey forms item.1 := by
        intro name hname
        rw [keys, List.map_append, List.mem_append] at hname
        rcases hname with hold | hadded
        · exact hfresh item (List.mem_append_right _ (List.mem_singleton.mpr rfl)) name hold
        · obtain ⟨other, hother, rfl⟩ := List.mem_map.mp hadded
          exact hlast _ (List.mem_map_of_mem hother) _ (List.mem_singleton.mpr rfl)
      have hnormal : normalizeAssetBucket forms (table ++ (adds ++ [item])) =
          normalizeAssetBucket forms (table ++ adds) ++ [(forms.nfc item.1, item.2)] := by
        unfold normalizeAssetBucket
        rw [← List.append_assoc, List.map_append, List.map_singleton, ofItems_concat, put,
          if_neg fun hmem => ?_]
        rw [mem_keys_ofItems, keys, List.map_map] at hmem
        obtain ⟨other, hother, hsame⟩ := List.mem_map.mp hmem
        refine hkey other.1 (List.mem_map_of_mem hother) ?_
        rw [← key_nfc forms other.1, ← key_nfc forms item.1]
        exact congrArg _ hsame
      have hput : referenceBucket forms (table ++ (adds ++ [item])) =
          put (referenceBucket forms (table ++ adds)) (assetNameComparisonKey forms item.1)
            item.2 := by
        unfold referenceBucket
        rw [hnormal, List.map_append, List.map_singleton, ofItems_concat, key_nfc]
      rw [hput, put, if_neg fun hmem => ?_, hrest, List.map_append, List.map_singleton,
        List.append_assoc]
      obtain ⟨name, hname, hsame⟩ := (mem_keys_referenceBucket forms).mp hmem
      exact hkey name hname hsame

theorem referenceBucket_of_nodup {bucket : Dict Text α}
    (hnodup : (bucket.map fun item => assetNameComparisonKey forms item.1).Nodup) :
    referenceBucket forms bucket =
      bucket.map fun item => (assetNameComparisonKey forms item.1, item.2) :=
  @referenceBucket_append forms α [] bucket hnodup fun _ _ _ hname => absurd hname List.not_mem_nil

end Buckets

section Catalog

variable {project : Project} {assetType : AssetType}

/-- A key that the catalog has for an asset: its name, or that of one of its derivatives. -/
def NamedBy (assetType : AssetType) (item : Text × AssetValue) (key : Text) : Prop :=
  key = assetNameComparisonKey forms item.1 ∨ assetType.supportsDerivatives = true ∧
    ∃ name ∈ keys (derivativeTable item.2), key = derivativeReference
      (assetNameComparisonKey forms item.1) (assetNameComparisonKey forms name)

theorem mem_assetReferences {item : Text × AssetValue} {key : Text} :
    key ∈ (assetReferences forms assetType
        (assetNameComparisonKey forms item.1, item.2)).map Prod.fst ↔
      NamedBy forms assetType item key := by
  unfold assetReferences NamedBy
  rw [List.map_cons, List.mem_cons]
  refine or_congr_right ?_
  by_cases hsupports : assetType.supportsDerivatives = true
  · rw [if_pos hsupports, List.map_map, List.mem_map]
    refine Iff.trans ?_ (and_iff_right hsupports).symm
    constructor
    · rintro ⟨derivative, hderivative, rfl⟩
      obtain ⟨name, hname, hkey⟩ :=
        (mem_keys_referenceBucket forms).mp (List.mem_map_of_mem hderivative)
      exact ⟨name, hname, by rw [hkey]; rfl⟩
    · rintro ⟨name, hname, rfl⟩
      obtain ⟨derivative, hderivative, hkey⟩ :=
        List.mem_map.mp ((mem_keys_referenceBucket forms).mpr ⟨name, hname, rfl⟩)
      exact ⟨derivative, hderivative, by rw [← hkey]; rfl⟩
  · rw [if_neg hsupports]
    exact iff_of_false List.not_mem_nil fun h => hsupports h.1

theorem lookup_isSome_iff
    (hnodup : ((project.bucket assetType).map fun item =>
      assetNameComparisonKey forms item.1).Nodup) {name : Text} :
    (lookup forms project assetType name).isSome = true ↔
      ∃ item ∈ project.bucket assetType,
        NamedBy forms assetType item (assetNameComparisonKey forms name) := by
  unfold lookup typeEntries
  rw [get_isSome_iff, mem_keys_ofItems, referenceBucket_of_nodup forms hnodup, keys,
    List.map_flatMap, List.mem_flatMap]
  constructor
  · rintro ⟨entry, hentry, hmem⟩
    obtain ⟨item, hitem, rfl⟩ := List.mem_map.mp hentry
    exact ⟨item, hitem, (mem_assetReferences forms).mp hmem⟩
  · rintro ⟨item, hitem, hnamed⟩
    exact ⟨_, List.mem_map_of_mem hitem, (mem_assetReferences forms).mpr hnamed⟩

theorem resolve_isSome_iff {name : Text} : (resolve forms project name).isSome = true ↔
    ∃ assetType, (lookup forms project assetType name).isSome = true := by
  unfold resolve
  rw [List.isSome_findSome?, List.any_eq_true]
  constructor
  · rintro ⟨assetType, -, hsome⟩
    exact ⟨assetType, hsome⟩
  · rintro ⟨assetType, hsome⟩
    exact ⟨assetType, by cases assetType <;> decide, hsome⟩

end Catalog

section Plans

structure Sorted (taken names moved folded : List Text) : Prop where
  parts : (moved ++ folded).Perm names
  nodup : (moved.map (assetNameComparisonKey forms)).Nodup
  fresh : ∀ name ∈ moved, assetNameComparisonKey forms name ∉ taken
  there : ∀ name ∈ folded, assetNameComparisonKey forms name ∈ taken ∨
    ∃ other ∈ moved, assetNameComparisonKey forms other = assetNameComparisonKey forms name

theorem sortDerivatives_sorted (taken names : List Text) :
    Sorted forms taken names (sortDerivatives forms taken names).1
      (sortDerivatives forms taken names).2 := by
  induction names generalizing taken with
  | nil =>
      exact ⟨List.Perm.refl _, List.nodup_nil, fun _ h => absurd h List.not_mem_nil,
        fun _ h => absurd h List.not_mem_nil⟩
  | cons name names ih =>
      rw [sortDerivatives]
      by_cases hmem : assetNameComparisonKey forms name ∈ taken
      · obtain ⟨hparts, hnodup, hfresh, hthere⟩ := ih taken
        simp only [if_pos hmem]
        refine ⟨List.perm_middle.trans (hparts.cons name), hnodup, hfresh, ?_⟩
        exact List.forall_mem_cons.mpr ⟨Or.inl hmem, hthere⟩
      · obtain ⟨hparts, hnodup, hfresh, hthere⟩ := ih (assetNameComparisonKey forms name :: taken)
        simp only [if_neg hmem]
        refine ⟨hparts.cons name, ?_, ?_, ?_⟩
        · rw [List.map_cons]
          refine List.nodup_cons.mpr ⟨fun hagain => ?_, hnodup⟩
          obtain ⟨other, hother, hsame⟩ := List.mem_map.mp hagain
          exact hfresh other hother (hsame ▸ List.mem_cons_self)
        · refine List.forall_mem_cons.mpr ⟨hmem, fun other hother htaken => ?_⟩
          exact hfresh other hother (List.mem_cons_of_mem _ htaken)
        · intro other hother
          rcases hthere other hother with htaken | ⟨moved, hmoved, hsame⟩
          · rcases List.mem_cons.mp htaken with hsame | htaken
            · exact Or.inr ⟨name, List.mem_cons_self, hsame.symm⟩
            · exact Or.inl htaken
          · exact Or.inr ⟨moved, List.mem_cons_of_mem _ hmoved, hsame⟩

variable {discarded kept : AssetEntry} {source target : Text} {asDerivative : Bool}

def addedDerivatives (source target : Text) (discarded : AssetEntry)
    (plan : DerivativeMergePlan) : Dict Text DerivativeValue :=
  plan.created.toList.map (·, createdDerivative discarded) ++
    plan.moved.filterMap fun name => ((get (discarded.derivatives.getD []) name).map
      (rewriteSheetPath forms source target name)).map (name, ·)

/-- The plan of a merge: the new names differ from each other and from those of the target, and each
derivative of the source has the name of one of the target or of a new one. -/
structure Planned (source : Text) (asDerivative : Bool) (names table : List Text)
    (plan : DerivativeMergePlan) : Prop where
  parts : (plan.moved ++ plan.folded).Perm names
  nodup : ((plan.created.toList ++ plan.moved).map (assetNameComparisonKey forms)).Nodup
  fresh : ∀ name ∈ plan.created.toList ++ plan.moved, ∀ old ∈ table,
    assetNameComparisonKey forms old ≠ assetNameComparisonKey forms name
  created : plan.created = some (assetNameComparisonKey forms source) ∧ asDerivative = true ∨
    plan.created = none ∧
    (asDerivative = true → ∃ old ∈ table,
      assetNameComparisonKey forms old = assetNameComparisonKey forms source)
  there : ∀ name ∈ names, ∃ other ∈ table ++ (plan.created.toList ++ plan.moved),
    assetNameComparisonKey forms other = assetNameComparisonKey forms name

theorem Sorted.planned {taken names table moved folded : List Text} {created : Option Text}
    (hsorted : Sorted forms taken names moved folded)
    (htaken : ∀ key, key ∈ taken ↔ key ∈ table.map (assetNameComparisonKey forms) ∨
      key ∈ created.toList.map (assetNameComparisonKey forms))
    (hcreated : created = some (assetNameComparisonKey forms source) ∧ asDerivative = true ∧
        assetNameComparisonKey forms source ∉ table.map (assetNameComparisonKey forms) ∨
      created = none ∧ (asDerivative = true →
        assetNameComparisonKey forms source ∈ table.map (assetNameComparisonKey forms))) :
    Planned forms source asDerivative names table { created, moved, folded } := by
  obtain ⟨hparts, hnodup, hfresh, hthere⟩ := hsorted
  refine ⟨hparts, ?_, ?_, ?_, ?_⟩
  · rw [List.map_append]
    refine List.Nodup.append ?_ hnodup ?_
    · cases created with
      | none => exact List.nodup_nil
      | some name => exact List.nodup_singleton _
    · intro key hcreated hmoved
      obtain ⟨name, hname, rfl⟩ := List.mem_map.mp hmoved
      exact hfresh name hname ((htaken _).mpr (Or.inr hcreated))
  · intro name hname old hold hsame
    have htable := List.mem_map_of_mem (f := assetNameComparisonKey forms) hold
    rcases List.mem_append.mp hname with hnew | hmoved
    · rcases hcreated with ⟨rfl, -, hnot⟩ | ⟨rfl, -⟩
      · obtain rfl := List.mem_singleton.mp hnew
        rw [key_key] at hsame
        exact hnot (hsame ▸ htable)
      · cases hnew
    · exact hfresh name hmoved ((htaken _).mpr (Or.inl (hsame ▸ htable)))
  · rcases hcreated with ⟨rfl, hderivative, -⟩ | ⟨rfl, hold⟩
    · exact Or.inl ⟨rfl, hderivative⟩
    · exact Or.inr ⟨rfl, fun hderivative => List.mem_map.mp (hold hderivative)⟩
  · intro name hname
    rcases List.mem_append.mp (hparts.mem_iff.mpr hname) with hmoved | hfolded
    · exact ⟨name, List.mem_append_right _ (List.mem_append_right _ hmoved), rfl⟩
    · rcases hthere name hfolded with htook | ⟨other, hother, hsame⟩
      · rcases (htaken _).mp htook with hold | hnew
        · obtain ⟨old, hmem, hsame⟩ := List.mem_map.mp hold
          exact ⟨old, List.mem_append_left _ hmem, hsame⟩
        · obtain ⟨new, hmem, hsame⟩ := List.mem_map.mp hnew
          exact ⟨new, List.mem_append_right _ (List.mem_append_left _ hmem), hsame⟩
      · exact ⟨other, List.mem_append_right _ (List.mem_append_right _ hother), hsame⟩

theorem planDerivativeMerge_planned : Planned forms source asDerivative
    (keys (discarded.derivatives.getD [])) (keys (kept.derivatives.getD []))
      (planDerivativeMerge forms (.entry discarded) (.entry kept) source asDerivative) := by
  refine (sortDerivatives_sorted forms _ _).planned forms (fun key => ?_) ?_
  · split_ifs with hderivative hcreates
    · rw [List.mem_cons, Option.toList_some, List.map_singleton, List.mem_singleton, key_key,
        or_comm]
      rfl
    · have hmem := not_not.mp fun hnot => hcreates ⟨hderivative, hnot⟩
      rw [List.mem_cons, Option.toList_none, List.map_nil]
      exact ⟨fun h => Or.inl (h.elim (fun hsame => hsame ▸ hmem) id),
        fun h => Or.inr (h.resolve_right List.not_mem_nil)⟩
    · rename_i hcreates
      exact absurd hcreates.1 hderivative
    · rw [Option.toList_none, List.map_nil]
      exact ⟨Or.inl, fun h => h.resolve_right List.not_mem_nil⟩
  · split_ifs with hcreates
    · exact Or.inl ⟨rfl, hcreates⟩
    · exact Or.inr ⟨rfl, fun hderivative => not_not.mp fun hnot => hcreates ⟨hderivative, hnot⟩⟩

section Tables

variable {table : Dict Text DerivativeValue} {plan : DerivativeMergePlan}
  (hplanned : Planned forms source asDerivative (keys (discarded.derivatives.getD []))
    (keys table) plan)
include hplanned

theorem Planned.moved_mem {name : Text} (hname : name ∈ plan.moved) :
    ∃ value, get (discarded.derivatives.getD []) name = some value :=
  Option.isSome_iff_exists.mp (get_isSome_iff.mpr
    (hplanned.parts.mem_iff.mp (List.mem_append_left _ hname)))

theorem mergedDerivatives_eq : mergedDerivatives forms source target discarded table plan =
    table ++ addedDerivatives forms source target discarded plan := by
  have hfresh : ∀ name ∈ plan.created.toList ++ plan.moved, name ∉ keys table :=
    fun name hname hold => hplanned.fresh name hname name hold rfl
  have hnodup := List.Nodup.of_map _ hplanned.nodup
  unfold mergedDerivatives addedDerivatives
  cases hcreated : plan.created with
  | none =>
      rw [hcreated, Option.toList_none, List.nil_append] at hfresh hnodup
      exact foldl_put hnodup hfresh
  | some name =>
      rw [hcreated, Option.toList_some, List.singleton_append] at hfresh hnodup
      obtain ⟨hname, hnodup⟩ := List.nodup_cons.mp hnodup
      obtain ⟨hnew, hfresh⟩ := List.forall_mem_cons.mp hfresh
      dsimp only
      rw [put_of_notMem hnew, foldl_put hnodup, List.append_assoc]
      · rfl
      · intro other hother
        rw [keys, List.map_append, List.mem_append]
        rintro (hold | hsame)
        · exact hfresh other hother hold
        · obtain rfl := List.mem_singleton.mp hsame
          exact hname hother

theorem keys_addedDerivatives : keys (addedDerivatives forms source target discarded plan) =
    plan.created.toList ++ plan.moved := by
  unfold addedDerivatives keys
  rw [List.map_append, List.map_map, List.map_filterMap]
  congr 1
  · exact List.map_id' _
  · refine (List.filterMap_congr fun name hname => ?_).trans List.filterMap_some
    obtain ⟨value, hvalue⟩ := hplanned.moved_mem forms hname
    rw [hvalue]
    rfl

theorem addedDerivatives_nodup : ((addedDerivatives forms source target discarded plan).map
    fun item => assetNameComparisonKey forms item.1).Nodup := by
  have hkeys : keys (addedDerivatives forms source target discarded plan) = _ :=
    keys_addedDerivatives forms hplanned
  have hnodup := hplanned.nodup
  rw [← hkeys, keys, List.map_map] at hnodup
  exact hnodup

theorem referenceBucket_merged :
    referenceBucket forms (mergedDerivatives forms source target discarded table plan) =
      referenceBucket forms table ++
        (addedDerivatives forms source target discarded plan).map fun item =>
          (assetNameComparisonKey forms item.1, item.2) := by
  rw [mergedDerivatives_eq forms hplanned]
  refine referenceBucket_append forms (addedDerivatives_nodup forms hplanned) ?_
  intro item hitem name hname
  have hkey : item.1 ∈ keys (addedDerivatives forms source target discarded plan) :=
    List.mem_map_of_mem hitem
  rw [keys_addedDerivatives forms hplanned] at hkey
  exact hplanned.fresh item.1 hkey name hname

end Tables

end Plans

section Merged

variable {project : Project} {assetType : AssetType} {source target : Text} {entry : AssetEntry}
  (hapart : NamesApart forms project)

theorem bucket_mergedProject : (mergedProject project assetType source target entry).bucket assetType =
    put (remove (project.bucket assetType) source) target (.entry entry) :=
  Function.update_self _ _ _

variable (hne : source ≠ target) (htarget : target ∈ keys (project.bucket assetType))
include hne htarget

theorem target_mem_remove : target ∈ keys (remove (project.bucket assetType) source) := by
  obtain ⟨item, hitem, rfl⟩ := List.mem_map.mp htarget
  exact List.mem_map_of_mem (mem_remove.mpr ⟨hitem, Ne.symm hne⟩)

theorem target_mem_merged :
    (target, .entry entry) ∈ (mergedProject project assetType source target entry).bucket assetType := by
  obtain ⟨item, hitem, hsame⟩ := List.mem_map.mp (target_mem_remove hne htarget)
  rw [bucket_mergedProject, put, if_pos (target_mem_remove hne htarget)]
  exact List.mem_map.mpr ⟨item, hitem, if_pos hsame⟩

include hapart in
theorem merged_nodup : (((mergedProject project assetType source target entry).bucket assetType).map
    fun item => assetNameComparisonKey forms item.1).Nodup := by
  have hkeys : keys ((mergedProject project assetType source target entry).bucket assetType) =
      keys (remove (project.bucket assetType) source) := by
    rw [bucket_mergedProject, keys_put, if_pos (target_mem_remove hne htarget)]
  have hnodup : ((keys (remove (project.bucket assetType) source)).map
      (assetNameComparisonKey forms)).Nodup := by
    have hall := hapart.nodup assetType
    rw [← Function.comp_def, ← List.map_map] at hall
    exact hall.sublist ((List.filter_sublist.map _).map _)
  rw [← hkeys, keys, List.map_map] at hnodup
  exact hnodup

end Merged

section Accepted

variable {checks : MergeChecks} {project merged : Project} {payloads payloads' : List Payload}
  {assetType : AssetType} {sourceName targetName : Text} {asDerivative : Bool}
  {report : AssetMergeReport}

structure Accepted (project merged : Project) (assetType : AssetType) (asDerivative : Bool)
    (report : AssetMergeReport) (discarded kept : AssetEntry) : Prop where
  supports : asDerivative = true → assetType.supportsDerivatives = true
  sourceForm : forms.nfc report.source = assetNameComparisonKey forms report.source
  targetForm : forms.nfc report.target = assetNameComparisonKey forms report.target
  targetThere : report.target ∈ keys (project.bucket assetType)
  differ : report.source ≠ report.target
  sourceEntry : entryOf (project.bucket assetType) report.source = some discarded
  targetEntry : entryOf (project.bucket assetType) report.target = some kept
  created : report.derivativeCreated =
    (derivativePlan forms assetType discarded kept report.source asDerivative).created
  moved : report.derivativesMoved =
    (derivativePlan forms assetType discarded kept report.source asDerivative).moved
  folded : report.derivativesFolded =
    (derivativePlan forms assetType discarded kept report.source asDerivative).folded
  project_eq : merged = mergedProject project assetType report.source report.target
    (mergedEntry forms report.source report.target asDerivative discarded kept
      (derivativePlan forms assetType discarded kept report.source asDerivative))

theorem require_ok {condition : Bool} {error : MergeError} {u : Unit}
    (h : require condition error = .ok u) : condition = true := by
  unfold require at h
  split_ifs at h with hcondition
  exact hcondition

theorem orThrow_ok {α : Type} {error : MergeError} {found : Option α} {a : α}
    (h : orThrow error found = .ok a) : found = some a := by
  cases found with
  | none => cases h
  | some b => exact congrArg some (Except.ok.inj h)

theorem resolved_form {bucket : Dict Text AssetValue} {name key : Text}
    (h : resolveAssetKey forms bucket (assetNameComparisonKey forms name) = some key) :
    forms.nfc key = assetNameComparisonKey forms key := by
  obtain ⟨-, hsame⟩ := resolveAssetKey_eq forms h
  rw [key_eq_strip, hsame, nfc_key, strip_of_stripped (stripped_key forms name)]

theorem mergeAsset_ok (h : mergeAsset forms checks project payloads assetType sourceName targetName
    asDerivative = .ok (report, merged, payloads')) :
    (∃ discarded kept, Accepted forms project merged assetType asDerivative report discarded kept) ∧
      payloads' = payloads.map
        (mergePayloadReferences forms assetType report.source report.target asDerivative) := by
  obtain ⟨_, -, h⟩ := bind_eq_ok.mp h
  obtain ⟨_, hsupports, h⟩ := bind_eq_ok.mp h
  obtain ⟨source, hsource, h⟩ := bind_eq_ok.mp h
  obtain ⟨target, htarget, h⟩ := bind_eq_ok.mp h
  obtain ⟨_, hne, h⟩ := bind_eq_ok.mp h
  obtain ⟨discarded, hdiscarded, h⟩ := bind_eq_ok.mp h
  obtain ⟨kept, hkept, h⟩ := bind_eq_ok.mp h
  obtain ⟨-, -, h⟩ := bind_eq_ok.mp h
  obtain ⟨-, -, h⟩ := bind_eq_ok.mp h
  obtain ⟨-, -, h⟩ := bind_eq_ok.mp h
  cases h
  have hsupports := require_ok hsupports
  refine ⟨⟨discarded, kept, fun hderivative => ?_, resolved_form forms (orThrow_ok hsource),
    resolved_form forms (orThrow_ok htarget), (resolveAssetKey_eq forms (orThrow_ok htarget)).1,
    of_decide_eq_true (require_ok hne), orThrow_ok hdiscarded, orThrow_ok hkept, rfl, rfl, rfl,
    rfl⟩, rfl⟩
  rwa [hderivative] at hsupports

end Accepted

end ShortReel.AssetMerge
