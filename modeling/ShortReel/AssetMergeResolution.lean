import ShortReel.AssetMergeReferences

/-!
# What a merge makes of the references

Each reference that a merge rewrites is found in the merged project, and that of a derivative is found
as what the plan has made of the derivative.
-/

namespace ShortReel.AssetMerge

open InsertionDict ReferenceCatalog
open SourceAlignment (Text)

variable (forms : NameForms)

section Lookup

variable {project : Project} {assetType : AssetType}

theorem split_plain {name : Text} (h : '/' ∉ name) : splitDerivativeReference name = (name, []) := by
  have hpass : ∀ c ∈ name, decide (c ≠ '/') = true := fun c hc =>
    decide_eq_true fun hslash => h (hslash ▸ hc)
  unfold splitDerivativeReference
  rw [List.takeWhile_eq_self_iff.mpr hpass, List.dropWhile_eq_nil_iff.mpr hpass]
  rfl

theorem NamedBy.base {item : Text × AssetValue} {key : Text} (h : NamedBy forms assetType item key)
    (hplain : '/' ∉ item.1) :
    (splitDerivativeReference key).1 = assetNameComparisonKey forms item.1 := by
  have hkey := slash_notMem_key forms hplain
  rcases h with rfl | ⟨-, name, -, rfl⟩
  · rw [split_plain hkey]
  · rw [split_derivativeReference _ hkey]

variable (hnodup : ((project.bucket assetType).map fun item =>
    assetNameComparisonKey forms item.1).Nodup)
  (hplain : ∀ item ∈ project.bucket assetType, '/' ∉ item.1)
include hnodup hplain

theorem catalog_nodup : (keys ((referenceBucket forms (project.bucket assetType)).flatMap
    (assetReferences forms assetType))).Nodup := by
  rw [referenceBucket_of_nodup forms hnodup, keys, List.map_flatMap, List.flatMap_map,
    List.nodup_flatMap]
  refine ⟨fun item hitem => ?_, ?_⟩
  · have hslash := slash_notMem_key forms (hplain item hitem)
    unfold assetReferences
    rw [List.map_cons]
    split_ifs
    · rw [List.map_map]
      refine List.nodup_cons.mpr ⟨fun hmem => ?_, ?_⟩
      · obtain ⟨derivative, -, hsame⟩ := List.mem_map.mp hmem
        have hsame : derivativeReference (assetNameComparisonKey forms item.1) derivative.1 =
          assetNameComparisonKey forms item.1 := hsame
        refine hslash ?_
        rw [← hsame]
        exact List.mem_append_right _ List.mem_cons_self
      · have hkeys : (keys (referenceBucket forms (derivativeTable item.2))).Nodup := nodup_ofItems
        have hmap := hkeys.map_on
          (f := derivativeReference (assetNameComparisonKey forms item.1)) fun a _ b _ hsame =>
            (derivativeReference_inj hslash hslash hsame).2
        rw [keys, List.map_map] at hmap
        exact hmap
    · exact List.nodup_singleton _
  · refine (List.pairwise_map.mp hnodup).imp_of_mem fun {a b} ha hb hne key hleft hright => hne ?_
    have hnamed := (mem_assetReferences forms).mp hleft
    have hother := (mem_assetReferences forms).mp hright
    rw [← hnamed.base forms (hplain a ha), hother.base forms (hplain b hb)]

theorem lookup_derivative {item : Text × AssetValue} (hitem : item ∈ project.bucket assetType)
    (hsupports : assetType.supportsDerivatives = true)
    (hbase : forms.nfc item.1 = assetNameComparisonKey forms item.1) {derivative : Text}
    (hderivative : forms.nfc derivative = assetNameComparisonKey forms derivative) :
    (lookup forms project assetType (derivativeReference item.1 derivative)).map (·.asset) =
      (get (referenceBucket forms (derivativeTable item.2))
        (assetNameComparisonKey forms derivative)).map .derivative := by
  have hkey := key_derivativeReference forms hbase hderivative
  cases hfound : get (referenceBucket forms (derivativeTable item.2))
      (assetNameComparisonKey forms derivative) with
  | none =>
      rw [Option.map_none, Option.map_eq_none_iff, ← Option.not_isSome_iff_eq_none,
        lookup_isSome_iff forms hnodup, hkey]
      rintro ⟨other, hother, hnamed⟩
      have hslash := slash_notMem_key forms (hplain item hitem)
      have hsame := hnamed.base forms (hplain other hother)
      rw [split_derivativeReference _ hslash] at hsame
      obtain rfl := List.inj_on_of_nodup_map hnodup hother hitem hsame.symm
      refine get_eq_none_iff.mp hfound ((mem_keys_referenceBucket forms).mpr ?_)
      rcases hnamed with hplainKey | ⟨-, name, hname, hsame⟩
      · refine absurd ?_ hslash
        rw [← hplainKey]
        exact List.mem_append_right _ List.mem_cons_self
      · exact ⟨name, hname, (derivativeReference_inj hslash hslash hsame).2.symm⟩
  | some value =>
      unfold lookup typeEntries
      rw [ofItems_of_nodup (catalog_nodup forms hnodup hplain), hkey]
      have hvalue := mem_of_get hfound
      have hmem : (derivativeReference (assetNameComparisonKey forms item.1)
          (assetNameComparisonKey forms derivative),
          ({ assetType, name := derivativeReference (assetNameComparisonKey forms item.1)
              (assetNameComparisonKey forms derivative)
             assetName := assetNameComparisonKey forms item.1
             asset := .derivative value } : ReferenceCatalogEntry)) ∈
          (referenceBucket forms (project.bucket assetType)).flatMap
            (assetReferences forms assetType) := by
        rw [referenceBucket_of_nodup forms hnodup]
        refine List.mem_flatMap.mpr ⟨_, List.mem_map_of_mem hitem, List.mem_cons_of_mem _ ?_⟩
        rw [if_pos hsupports]
        exact List.mem_map.mpr ⟨_, hvalue, rfl⟩
      rw [get_eq_some_of_mem (catalog_nodup forms hnodup hplain) hmem]
      rfl

end Lookup

section References

def SiteResolves (project : Project) (assetType : AssetType) : Site → Text → Bool
  | .name, name => (lookup forms project assetType name).isSome
  | .target, name => (lookup forms project assetType name).isSome
  | .speaker, name => (lookup forms project .character name).isSome
  | .text _, name => (resolve forms project name).isSome
  | .scene _, name => (resolve forms project name).isSome

variable {project : Project} {assetType : AssetType} {site : Site} {name new source target : Text}
  {asDerivative speaker : Bool}

theorem SiteResolves.exists_lookup (h : SiteResolves forms project assetType site name = true) :
    ∃ other, (lookup forms project other name).isSome = true := by
  cases site with
  | name => exact ⟨_, h⟩
  | target => exact ⟨_, h⟩
  | speaker => exact ⟨_, h⟩
  | text speaks => exact (resolve_isSome_iff forms).mp h
  | scene speaks => exact (resolve_isSome_iff forms).mp h

theorem siteResolves_of_lookup (h : (lookup forms project assetType name).isSome = true)
    (hspeaker : site = .speaker → assetType = .character) :
    SiteResolves forms project assetType site name = true := by
  cases site with
  | name => exact h
  | target => exact h
  | speaker => exact hspeaker rfl ▸ h
  | text speaks => exact (resolve_isSome_iff forms).mpr ⟨assetType, h⟩
  | scene speaks => exact (resolve_isSome_iff forms).mpr ⟨assetType, h⟩

theorem mergedReference_cases
    (h : mergedReference forms name source target asDerivative speaker = some new) :
    (∃ derivative, assetNameComparisonKey forms name =
        derivativeReference (assetNameComparisonKey forms source) derivative ∧
      new = derivativeReference target derivative) ∨
    asDerivative = true ∧ new = derivativeReference target (assetNameComparisonKey forms source) ∨
    new = target := by
  unfold mergedReference at h
  dsimp only at h
  split_ifs at h with hderivative hbase hkey hspeaks
  · refine Or.inl ⟨_, ?_, (Option.some.inj h).symm⟩
    rw [← hbase]
    exact eq_derivativeReference hderivative
  · rw [Bool.and_eq_true] at hspeaks
    exact Or.inr (Or.inl ⟨hspeaks.1, (Option.some.inj h).symm⟩)
  · exact Or.inr (Or.inr (Option.some.inj h).symm)

theorem mergedReference_derivative {derivative : Text} (hplain : '/' ∉ source)
    (hne : derivative ≠ []) (hname : assetNameComparisonKey forms name =
      derivativeReference (assetNameComparisonKey forms source) derivative) :
    mergedReference forms name source target asDerivative speaker =
      some (derivativeReference target derivative) := by
  have hsplit := split_derivativeReference derivative (slash_notMem_key forms hplain)
  unfold mergedReference
  rw [hname]
  dsimp only
  rw [hsplit, if_pos hne, if_pos rfl]

end References

section Merged

variable {project merged : Project} {assetType : AssetType} {asDerivative : Bool}
  {report : AssetMergeReport} {discarded kept : AssetEntry}

theorem mergedEntry_derivatives {source target : Text} {plan : DerivativeMergePlan} :
    derivativeTable (.entry (mergedEntry forms source target asDerivative discarded kept plan)) =
      mergedDerivatives forms source target discarded (kept.derivatives.getD []) plan := by
  have haliases : ∀ names, (recordAssetAliases forms kept names target).derivatives =
      kept.derivatives := by
    intro names
    unfold recordAssetAliases
    dsimp only
    split_ifs <;> rfl
  have hkept : (if asDerivative then kept
      else recordAssetAliases forms kept (source :: discarded.aliases.getD []) target).derivatives =
      kept.derivatives := by
    split_ifs
    · rfl
    · exact haliases _
  unfold mergedEntry derivativeTable
  dsimp only
  by_cases hnone : plan.created = none ∧ plan.moved = []
  · rw [if_pos hnone, hkept, mergedDerivatives, hnone.1, hnone.2]
    rfl
  · rw [if_neg hnone, hkept]
    rfl

theorem derivativePlan_planned {source : Text}
    (hsupports : assetType.supportsDerivatives = true) :
    Planned forms source asDerivative (keys (discarded.derivatives.getD []))
      (keys (kept.derivatives.getD []))
      (derivativePlan forms assetType discarded kept source asDerivative) := by
  unfold derivativePlan
  rw [if_pos hsupports]
  exact planDerivativeMerge_planned forms

variable (hapart : NamesApart forms project)
  (hmerge : Accepted forms project merged assetType asDerivative report discarded kept)
include hapart hmerge

omit hapart in
theorem Accepted.target_mem : ∃ entry, (report.target, AssetValue.entry entry) ∈
    merged.bucket assetType ∧ derivativeTable (.entry entry) =
      mergedDerivatives forms report.source report.target discarded (kept.derivatives.getD [])
        (derivativePlan forms assetType discarded kept report.source asDerivative) := by
  refine ⟨mergedEntry forms report.source report.target asDerivative discarded kept
    (derivativePlan forms assetType discarded kept report.source asDerivative), ?_,
    mergedEntry_derivatives forms⟩
  rw [hmerge.project_eq]
  exact target_mem_merged hmerge.differ hmerge.targetThere

theorem Accepted.nodup : ((merged.bucket assetType).map fun item =>
    assetNameComparisonKey forms item.1).Nodup := by
  rw [hmerge.project_eq]
  exact merged_nodup forms hapart hmerge.differ hmerge.targetThere

theorem Accepted.plain : ∀ item ∈ merged.bucket assetType, '/' ∉ item.1 := by
  intro item hitem
  rw [hmerge.project_eq, bucket_mergedProject] at hitem
  obtain ⟨old, hold, hsame⟩ := List.mem_map.mp hmerge.targetThere
  rcases mem_put hitem with rfl | hother
  · rw [← hsame]
    exact hapart.plain assetType old hold
  · exact hapart.plain assetType item (mem_remove.mp hother).1

omit hapart in
theorem Accepted.source_mem :
    (report.source, AssetValue.entry discarded) ∈ project.bucket assetType := by
  have hentry := hmerge.sourceEntry
  unfold entryOf at hentry
  split at hentry
  · rename_i asset hget
    cases hentry
    exact mem_of_get hget
  · cases hentry

theorem Accepted.source_unique {other : AssetType} {item : Text × AssetValue}
    (hitem : item ∈ project.bucket other)
    (hkey : assetNameComparisonKey forms item.1 = assetNameComparisonKey forms report.source) :
    other = assetType ∧ item = (report.source, AssetValue.entry discarded) := by
  obtain rfl := hapart.unique _ _ item hitem _ hmerge.source_mem hkey
  exact ⟨rfl, List.inj_on_of_nodup_map (hapart.nodup other) hitem hmerge.source_mem hkey⟩

theorem Accepted.source_plain : '/' ∉ report.source :=
  hapart.plain assetType _ hmerge.source_mem

/-- The target has a derivative of that name behind the merge, one of its own or a new one. -/
def Derived (report : AssetMergeReport) (kept : AssetEntry) (name : Text) : Prop :=
  ∃ other ∈ keys (kept.derivatives.getD []) ++
      (report.derivativeCreated.toList ++ report.derivativesMoved),
    assetNameComparisonKey forms other = assetNameComparisonKey forms name

inductive Became (report : AssetMergeReport) (discarded kept : AssetEntry) (name : Text) :
    DerivativeValue → Prop
  | there (value : DerivativeValue) : get (referenceBucket forms (kept.derivatives.getD []))
      (assetNameComparisonKey forms name) = some value → Became report discarded kept name value
  | created : report.derivativeCreated = some (assetNameComparisonKey forms name) →
      Became report discarded kept name (createdDerivative discarded)
  | moved (other : Text) (value : DerivativeValue) : other ∈ report.derivativesMoved →
      assetNameComparisonKey forms other = assetNameComparisonKey forms name →
      get (discarded.derivatives.getD []) other = some value →
      Became report discarded kept name
        (rewriteSheetPath forms report.source report.target other value)

omit hapart in
theorem Accepted.added_of_created {name : Text} (hname : report.derivativeCreated = some name) :
    (name, createdDerivative discarded) ∈ addedDerivatives forms report.source report.target discarded
      (derivativePlan forms assetType discarded kept report.source asDerivative) := by
  rw [hmerge.created] at hname
  unfold addedDerivatives
  rw [hname]
  exact List.mem_append_left _ (List.mem_singleton.mpr rfl)

variable (hsupports : assetType.supportsDerivatives = true)
include hsupports

omit hapart in
theorem Accepted.added_of_moved {name : Text} (hname : name ∈ report.derivativesMoved) :
    ∃ value, get (discarded.derivatives.getD []) name = some value ∧
      (name, rewriteSheetPath forms report.source report.target name value) ∈
        addedDerivatives forms report.source report.target discarded
          (derivativePlan forms assetType discarded kept report.source asDerivative) := by
  rw [hmerge.moved] at hname
  obtain ⟨value, hvalue⟩ := (derivativePlan_planned forms hsupports).moved_mem forms hname
  refine ⟨value, hvalue, List.mem_append_right _ (List.mem_filterMap.mpr ⟨name, hname, ?_⟩)⟩
  rw [hvalue]
  rfl

theorem Accepted.lookup_target (name : Text) :
    (lookup forms merged assetType
      (derivativeReference report.target (assetNameComparisonKey forms name))).map (·.asset) =
    ((get (referenceBucket forms (kept.derivatives.getD [])) (assetNameComparisonKey forms name)).or
      (get ((addedDerivatives forms report.source report.target discarded
          (derivativePlan forms assetType discarded kept report.source asDerivative)).map fun item =>
            (assetNameComparisonKey forms item.1, item.2))
        (assetNameComparisonKey forms name))).map .derivative := by
  obtain ⟨entry, hentry, htable⟩ := hmerge.target_mem
  have hform : forms.nfc (assetNameComparisonKey forms name) =
      assetNameComparisonKey forms (assetNameComparisonKey forms name) := by
    rw [nfc_key, key_key]
  rw [lookup_derivative forms (hmerge.nodup forms hapart) (hmerge.plain forms hapart) hentry
    hsupports hmerge.targetForm hform, htable, key_key,
    referenceBucket_merged forms (derivativePlan_planned forms hsupports), get_append]

theorem Accepted.lookup_added {name : Text} {value : DerivativeValue}
    (hmem : (name, value) ∈ addedDerivatives forms report.source report.target discarded
      (derivativePlan forms assetType discarded kept report.source asDerivative)) :
    (lookup forms merged assetType
      (derivativeReference report.target (assetNameComparisonKey forms name))).map (·.asset) =
      some (.derivative value) := by
  have hplanned : Planned forms report.source asDerivative (keys (discarded.derivatives.getD []))
      (keys (kept.derivatives.getD []))
      (derivativePlan forms assetType discarded kept report.source asDerivative) :=
    derivativePlan_planned forms hsupports
  have hname : name ∈ keys (addedDerivatives forms report.source report.target discarded
      (derivativePlan forms assetType discarded kept report.source asDerivative)) :=
    List.mem_map_of_mem hmem
  rw [keys_addedDerivatives forms hplanned] at hname
  have hnone : get (referenceBucket forms (kept.derivatives.getD []))
      (assetNameComparisonKey forms name) = none := by
    refine get_eq_none_iff.mpr fun hold => ?_
    obtain ⟨old, hold, hsame⟩ := (mem_keys_referenceBucket forms).mp hold
    exact hplanned.fresh name hname old hold hsame
  have hkeys : (keys ((addedDerivatives forms report.source report.target discarded
      (derivativePlan forms assetType discarded kept report.source asDerivative)).map fun item =>
        (assetNameComparisonKey forms item.1, item.2))).Nodup := by
    rw [keys, List.map_map]
    exact addedDerivatives_nodup forms hplanned
  rw [hmerge.lookup_target forms hapart hsupports, hnone, Option.none_or,
    get_eq_some_of_mem hkeys (List.mem_map.mpr ⟨_, hmem, rfl⟩)]
  rfl

theorem Accepted.found {name : Text} (hderived : Derived forms report kept name) :
    ∃ value, Became forms report discarded kept name value ∧
      (lookup forms merged assetType
        (derivativeReference report.target (assetNameComparisonKey forms name))).map (·.asset) =
        some (.derivative value) := by
  cases hthere : get (referenceBucket forms (kept.derivatives.getD []))
      (assetNameComparisonKey forms name) with
  | some value =>
      refine ⟨value, Became.there value hthere, ?_⟩
      rw [hmerge.lookup_target forms hapart hsupports, hthere, Option.some_or]
      rfl
  | none =>
      obtain ⟨other, hother, hsame⟩ := hderived
      rcases List.mem_append.mp hother with hold | hnew
      · exact absurd ((mem_keys_referenceBucket forms).mpr ⟨other, hold, hsame⟩)
          (get_eq_none_iff.mp hthere)
      rcases List.mem_append.mp hnew with hcreated | hmoved
      · have hcreated := Option.mem_toList.mp hcreated
        have hkey : assetNameComparisonKey forms other = other := by
          have hplan := hcreated
          rw [hmerge.created] at hplan
          rcases (@derivativePlan_planned forms assetType asDerivative discarded kept report.source
            hsupports).created with ⟨hcreates, -⟩ | ⟨hcreates, -⟩
          · rw [← Option.some.inj (hcreates.symm.trans hplan), key_key]
          · rw [hcreates] at hplan
            cases hplan
        refine ⟨_, Became.created (hsame ▸ hkey.symm ▸ hcreated), ?_⟩
        rw [← hsame]
        exact hmerge.lookup_added forms hapart hsupports
          (hmerge.added_of_created forms hcreated)
      · obtain ⟨value, hvalue, hmem⟩ := hmerge.added_of_moved forms hsupports hmoved
        refine ⟨_, Became.moved other value hmoved hsame hvalue, ?_⟩
        rw [← hsame]
        exact hmerge.lookup_added forms hapart hsupports hmem

omit hapart in
theorem Accepted.derived {name : Text} (hname : name ∈ keys (discarded.derivatives.getD [])) :
    Derived forms report kept name := by
  obtain ⟨other, hother, hsame⟩ :=
    (@derivativePlan_planned forms assetType asDerivative discarded kept report.source
      hsupports).there name hname
  rw [← hmerge.created, ← hmerge.moved] at hother
  exact ⟨other, hother, hsame⟩

omit hapart in
theorem Accepted.derived_source (hderivative : asDerivative = true) :
    Derived forms report kept report.source := by
  rcases (@derivativePlan_planned forms assetType asDerivative discarded kept report.source
    hsupports).created with ⟨hcreates, -⟩ | ⟨-, hthere⟩
  · rw [← hmerge.created] at hcreates
    refine ⟨_, List.mem_append_right _ (List.mem_append_left _ (Option.mem_toList.mpr hcreates)), ?_⟩
    exact key_key forms _
  · obtain ⟨old, hold, hsame⟩ := hthere hderivative
    exact ⟨old, List.mem_append_left _ hold, hsame⟩

end Merged

section Payloads

variable {assetType : AssetType} {source target : Text} {asDerivative : Bool} {payload : Payload}

theorem mem_dropRepeated {written seen items : List Text} {item : Text}
    (h : item ∈ dropRepeated forms written seen items) : item ∈ items := by
  induction items generalizing seen with
  | nil => cases h
  | cons first items ih =>
      rw [dropRepeated] at h
      split_ifs at h
      · exact List.mem_cons_of_mem _ (ih h)
      · rcases List.mem_cons.mp h with rfl | h
        · exact List.mem_cons_self
        · exact List.mem_cons_of_mem _ (ih h)

theorem mem_references_merged {reference : Site × Text} (h : reference ∈
      (mergePayloadReferences forms assetType source target asDerivative payload).references) :
    ∃ name, (reference.1, name) ∈ payload.references ∧ (reference.2 = name ∨
      reference.2 = rewritten forms source target asDerivative reference.1 name ∧
        (reference.1 = .speaker → assetType = .character)) := by
  unfold Payload.references at h
  simp only [List.mem_append] at h
  rcases h with (((h | h) | h) | h) | h
  · obtain ⟨item, hitem, rfl⟩ := List.mem_map.mp h
    obtain ⟨items, hitems, hmem⟩ := List.mem_flatten.mp hitem
    obtain ⟨old, hold, rfl⟩ := List.mem_map.mp hitems
    obtain ⟨name, hname, rfl⟩ := List.mem_map.mp (mem_dropRepeated forms hmem)
    refine ⟨name, ?_, Or.inr ⟨rfl, fun hspeaker => by cases hspeaker⟩⟩
    unfold Payload.references
    simp only [List.mem_append]
    exact Or.inl (Or.inl (Or.inl (Or.inl
      (List.mem_map_of_mem (List.mem_flatten.mpr ⟨old, hold, hname⟩)))))
  · obtain ⟨item, hitem, rfl⟩ := List.mem_map.mp h
    obtain ⟨name, hname, rfl⟩ := List.mem_map.mp hitem
    refine ⟨name, ?_, Or.inr ⟨rfl, fun hspeaker => by cases hspeaker⟩⟩
    unfold Payload.references
    simp only [List.mem_append]
    exact Or.inl (Or.inl (Or.inl (Or.inr (List.mem_map_of_mem hname))))
  · obtain ⟨item, hitem, rfl⟩ := List.mem_map.mp h
    have hplace : ∀ name ∈ payload.speakers, (Site.speaker, name) ∈ payload.references := by
      intro name hname
      unfold Payload.references
      simp only [List.mem_append]
      exact Or.inl (Or.inl (Or.inr (List.mem_map_of_mem hname)))
    unfold mergePayloadReferences at hitem
    dsimp only at hitem
    split_ifs at hitem with hcharacter
    · obtain ⟨name, hname, rfl⟩ := List.mem_map.mp hitem
      exact ⟨name, hplace name hname, Or.inr ⟨rfl, fun _ => hcharacter⟩⟩
    · exact ⟨item, hplace item hitem, Or.inl rfl⟩
  · obtain ⟨mention, hmention, rfl⟩ := List.mem_map.mp h
    obtain ⟨old, hold, rfl⟩ := List.mem_map.mp hmention
    refine ⟨old.1, ?_, Or.inr ⟨rfl, fun hspeaker => by cases hspeaker⟩⟩
    unfold Payload.references
    simp only [List.mem_append]
    exact Or.inl (Or.inr (List.mem_map.mpr ⟨old, hold, rfl⟩))
  · obtain ⟨mention, hmention, rfl⟩ := List.mem_map.mp h
    obtain ⟨old, hold, rfl⟩ := List.mem_map.mp hmention
    refine ⟨old.1, ?_, Or.inr ⟨rfl, fun hspeaker => by cases hspeaker⟩⟩
    unfold Payload.references
    simp only [List.mem_append]
    exact Or.inr (List.mem_map.mpr ⟨old, hold, rfl⟩)

end Payloads

section Resolution

variable {project merged : Project} {assetType : AssetType} {asDerivative : Bool}
  {report : AssetMergeReport} {discarded kept : AssetEntry}
  (hapart : NamesApart forms project)
  (hmerge : Accepted forms project merged assetType asDerivative report discarded kept)
include hapart hmerge

theorem Accepted.resolves_target :
    (lookup forms merged assetType report.target).isSome = true := by
  obtain ⟨entry, hentry, -⟩ := hmerge.target_mem
  exact (lookup_isSome_iff forms (hmerge.nodup forms hapart)).mpr ⟨_, hentry, Or.inl rfl⟩

theorem Accepted.resolves {site : Site} {name new : Text}
    (hresolves : SiteResolves forms project assetType site name = true)
    (hrewritten : mergedAt forms report.source report.target asDerivative site name = some new) :
    (lookup forms merged assetType new).isSome = true := by
  obtain ⟨other, hlookup⟩ := SiteResolves.exists_lookup forms hresolves
  rcases mergedReference_cases forms hrewritten with ⟨derivative, hkey, rfl⟩ | ⟨hderivative, rfl⟩ | rfl
  · have hnodup := hapart.nodup other
    obtain ⟨item, hitem, hnamed⟩ := (lookup_isSome_iff forms hnodup).mp hlookup
    have hsource := slash_notMem_key forms (hmerge.source_plain forms hapart)
    have hitemPlain := slash_notMem_key forms (hapart.plain other item hitem)
    rw [hkey] at hnamed
    have hbase := hnamed.base forms (hapart.plain other item hitem)
    rw [split_derivativeReference _ hsource] at hbase
    obtain ⟨rfl, rfl⟩ := hmerge.source_unique forms hapart hitem hbase.symm
    rcases hnamed with hplain | ⟨hsupports, found, hfound, hsame⟩
    · refine absurd ?_ hsource
      rw [← hplain]
      exact List.mem_append_right _ List.mem_cons_self
    · obtain rfl := (derivativeReference_inj hsource hsource hsame).2
      obtain ⟨value, -, hvalue⟩ :=
        hmerge.found forms hapart hsupports (hmerge.derived forms hsupports hfound)
      rw [← Option.isSome_map, hvalue]
      rfl
  · have hsupports := hmerge.supports hderivative
    obtain ⟨value, -, hvalue⟩ :=
      hmerge.found forms hapart hsupports (hmerge.derived_source forms hsupports hderivative)
    rw [← Option.isSome_map, hvalue]
    rfl
  · exact hmerge.resolves_target forms hapart

end Resolution

/-- The references to a derivative of an asset go to a derivative of the target, and find it. -/
def Reaches (merged : Project) (assetType : AssetType) (source target : Text) (asDerivative : Bool)
    (name : Text) (value : DerivativeValue) : Prop :=
  assetNameComparisonKey forms name ≠ [] → ∀ site reference,
    assetNameComparisonKey forms reference =
      derivativeReference (assetNameComparisonKey forms source) (assetNameComparisonKey forms name) →
    ∃ new, mergedAt forms source target asDerivative site reference = some new ∧
      (lookup forms merged assetType new).map (·.asset) = some (.derivative value)

/-- The plan of a merge is followed: each derivative of the source moves or folds, and what names it
finds what it has become. What names an asset that becomes a derivative finds that. -/
structure PlanFollowed (merged : Project) (assetType : AssetType) (asDerivative : Bool)
    (report : AssetMergeReport) (discarded kept : AssetEntry) : Prop where
  parts : (report.derivativesMoved ++ report.derivativesFolded).Perm
    (keys (discarded.derivatives.getD []))
  moved : ∀ name ∈ report.derivativesMoved, ∃ value,
    get (discarded.derivatives.getD []) name = some value ∧
    Reaches forms merged assetType report.source report.target asDerivative name
      (rewriteSheetPath forms report.source report.target name value)
  folded : ∀ name ∈ report.derivativesFolded, ∃ value,
    Became forms report discarded kept name value ∧
    Reaches forms merged assetType report.source report.target asDerivative name value
  itself : asDerivative = true → ∃ value,
    Became forms report discarded kept report.source value ∧
    (lookup forms merged assetType (derivativeReference report.target
      (assetNameComparisonKey forms report.source))).map (·.asset) = some (.derivative value)

section Followed

variable {checks : MergeChecks} {project merged : Project} {payloads payloads' : List Payload}
  {assetType : AssetType} {sourceName targetName : Text} {asDerivative : Bool}
  {report : AssetMergeReport} {discarded kept : AssetEntry}

theorem Accepted.reaches (hapart : NamesApart forms project)
    (hmerge : Accepted forms project merged assetType asDerivative report discarded kept)
    {name : Text} {value : DerivativeValue}
    (hfound : (lookup forms merged assetType (derivativeReference report.target
      (assetNameComparisonKey forms name))).map (·.asset) = some (.derivative value)) :
    Reaches forms merged assetType report.source report.target asDerivative name value :=
  fun hne site _ hreference => ⟨_, @mergedReference_derivative forms _ _ report.target asDerivative
    site.takesAsset _ (hmerge.source_plain forms hapart) hne hreference, hfound⟩

theorem Accepted.followed (hapart : NamesApart forms project)
    (hmerge : Accepted forms project merged assetType asDerivative report discarded kept)
    (hsupports : assetType.supportsDerivatives = true) :
    PlanFollowed forms merged assetType asDerivative report discarded kept := by
  have hparts : (report.derivativesMoved ++ report.derivativesFolded).Perm
      (keys (discarded.derivatives.getD [])) := by
    rw [hmerge.moved, hmerge.folded]
    exact (derivativePlan_planned forms hsupports).parts
  refine ⟨hparts, fun name hname => ?_, fun name hname => ?_, fun hderivative => ?_⟩
  · obtain ⟨value, hvalue, hmem⟩ := hmerge.added_of_moved forms hsupports hname
    exact ⟨value, hvalue, hmerge.reaches forms hapart
      (hmerge.lookup_added forms hapart hsupports hmem)⟩
  · have hthere := hparts.mem_iff.mp (List.mem_append_right _ hname)
    obtain ⟨value, hbecame, hfound⟩ :=
      hmerge.found forms hapart hsupports (hmerge.derived forms hsupports hthere)
    exact ⟨value, hbecame, hmerge.reaches forms hapart hfound⟩
  · exact hmerge.found forms hapart hsupports (hmerge.derived_source forms hsupports hderivative)

/-- When the assets have names of their own and each reference resolves, each reference that an accepted
merge rewrites resolves in the merged project, and the references follow the derivatives. -/
theorem merged_references_resolve (hapart : NamesApart forms project)
    (hresolves : ∀ payload ∈ payloads, ∀ reference ∈ payload.references,
      SiteResolves forms project assetType reference.1 reference.2 = true)
    (hmerge : mergeAsset forms checks project payloads assetType sourceName targetName asDerivative =
      .ok (report, merged, payloads')) :
    (∀ payload ∈ payloads, ∀ reference ∈ payload.references, ∀ new,
      mergedAt forms report.source report.target asDerivative reference.1 reference.2 = some new →
      (reference.1 = .speaker → assetType = .character) →
      SiteResolves forms merged assetType reference.1 new = true) ∧
    (∀ payload' ∈ payloads', ∀ reference ∈ payload'.references,
      (∃ payload ∈ payloads, reference ∈ payload.references) ∨
      SiteResolves forms merged assetType reference.1 reference.2 = true) ∧
    ∃ discarded kept, entryOf (project.bucket assetType) report.source = some discarded ∧
      entryOf (project.bucket assetType) report.target = some kept ∧
      (assetType.supportsDerivatives = true →
        PlanFollowed forms merged assetType asDerivative report discarded kept) := by
  obtain ⟨⟨discarded, kept, haccepted⟩, rfl⟩ := mergeAsset_ok forms hmerge
  have hrewritten : ∀ payload ∈ payloads, ∀ reference ∈ payload.references, ∀ new,
      mergedAt forms report.source report.target asDerivative reference.1 reference.2 = some new →
      (reference.1 = .speaker → assetType = .character) →
      SiteResolves forms merged assetType reference.1 new = true := by
    intro payload hpayload reference hreference new hnew hspeaker
    exact siteResolves_of_lookup forms (haccepted.resolves forms hapart
      (hresolves payload hpayload reference hreference) hnew) hspeaker
  refine ⟨hrewritten, fun payload' hpayload' reference hreference => ?_, discarded, kept,
    haccepted.sourceEntry, haccepted.targetEntry, haccepted.followed forms hapart⟩
  obtain ⟨payload, hpayload, rfl⟩ := List.mem_map.mp hpayload'
  obtain ⟨name, hname, hsame | ⟨hsame, hspeaker⟩⟩ := mem_references_merged forms hreference
  · refine Or.inl ⟨payload, hpayload, ?_⟩
    rw [← Prod.mk.eta (p := reference), hsame]
    exact hname
  · rw [rewritten] at hsame
    cases hnew : mergedAt forms report.source report.target asDerivative reference.1 name with
    | none =>
        refine Or.inl ⟨payload, hpayload, ?_⟩
        rw [hnew] at hsame
        rw [← Prod.mk.eta (p := reference), hsame]
        exact hname
    | some new =>
        rw [hnew] at hsame
        rw [hsame]
        exact Or.inr (hrewritten payload hpayload _ hname new hnew hspeaker)

end Followed

def plainForms : NameForms where
  nfc := id
  posixPath := id
  nfc_nfc _ := rfl
  nfc_slash _ _ := rfl
  slash_of_nfc _ := id
  strip_nfc _ := rfl

def uncheckedMerge : MergeChecks where
  relocates _ _ _ := true
  validates _ _ := true

def plainDerivative : DerivativeValue :=
  .entry { description := none, sheet := none }

def assetWith (names : List Text) : AssetValue :=
  .entry { description := none, aliases := none
           derivatives := some (names.map (·, plainDerivative)) }

def twoCharacters : Project where
  bucket
    | .character => [(['a'], assetWith [['x'], ['y']]), (['b'], assetWith [['x']])]
    | _ => []
  uniqueNamespace := true

def twoCharactersReport : AssetMergeReport where
  source := ['a']
  target := ['b']
  asDerivative := false
  aliasesAdded := [['a']]
  derivativeCreated := none
  derivativesMoved := [['y']]
  derivativesFolded := [['x']]

def twoCharactersMerged : Project :=
  mergedProject twoCharacters .character ['a'] ['b']
    { description := none, aliases := some [['a']]
      derivatives := some [(['x'], plainDerivative), (['y'], plainDerivative)] }

def twoPayloads : List Payload :=
  [{ lists := [[['a', '/', 'x'], ['a', '/', 'y']]], targets := [], speakers := [['a']]
     texts := [], scenes := [] }]

theorem twoCharacters_apart : NamesApart plainForms twoCharacters := by
  have hempty : ∀ a, a ≠ .character → twoCharacters.bucket a = [] := by
    intro a ha
    cases a with
    | character => exact absurd rfl ha
    | scene => rfl
    | prop => rfl
    | product => rfl
  have honly : ∀ a, ∀ x ∈ twoCharacters.bucket a, a = .character := by
    intro a x hx
    by_contra hne
    rw [hempty a hne] at hx
    cases hx
  refine ⟨fun a b x hx y hy _ => (honly a x hx).trans (honly b y hy).symm, fun a => ?_,
    fun a x hx => ?_⟩
  · cases a <;> decide
  · cases honly a x hx
    revert x
    decide

theorem merged_references_resolve_two :
    (∀ payload ∈ twoPayloads, ∀ reference ∈ payload.references, ∀ new,
      mergedAt plainForms ['a'] ['b'] false reference.1 reference.2 = some new →
      (reference.1 = .speaker → AssetType.character = .character) →
      SiteResolves plainForms twoCharactersMerged .character reference.1 new = true) ∧
    PlanFollowed plainForms twoCharactersMerged .character false twoCharactersReport
      { description := none, aliases := none
        derivatives := some [(['x'], plainDerivative), (['y'], plainDerivative)] }
      { description := none, aliases := none, derivatives := some [(['x'], plainDerivative)] } := by
  have hmerge : mergeAsset plainForms uncheckedMerge twoCharacters twoPayloads .character ['a'] ['b']
      false = .ok (twoCharactersReport, twoCharactersMerged,
        [{ lists := [[['b', '/', 'x'], ['b', '/', 'y']]], targets := [], speakers := [['b']]
           texts := [], scenes := [] }]) := rfl
  obtain ⟨hrewritten, -, discarded, kept, hdiscarded, hkept, hfollowed⟩ :=
    merged_references_resolve plainForms twoCharacters_apart (by decide) hmerge
  cases hdiscarded
  cases hkept
  exact ⟨hrewritten, hfollowed rfl⟩

def sharedName : Project where
  bucket
    | .character => [(['a'], assetWith [['x']])]
    | .scene => [(['a'], assetWith []), (['b'], assetWith [])]
    | _ => []
  uniqueNamespace := false

def sharedNamePayload : Payload where
  lists := []
  targets := []
  speakers := []
  texts := [(['a', '/', 'x'], false)]
  scenes := []

/-- The mention of the character's derivative is taken for one of the scene, which moves. -/
theorem shared_name_breaks : ∃ report merged payloads',
    mergeAsset plainForms uncheckedMerge sharedName [sharedNamePayload] .scene ['a'] ['b'] false =
      .ok (report, merged, payloads') ∧
    (∀ reference ∈ sharedNamePayload.references,
      SiteResolves plainForms sharedName .scene reference.1 reference.2 = true) ∧
    mergedAt plainForms report.source report.target false (.text false) ['a', '/', 'x'] =
      some ['b', '/', 'x'] ∧
    SiteResolves plainForms merged .scene (.text false) ['b', '/', 'x'] = false :=
  ⟨_, _, _, rfl, by decide, rfl, rfl⟩

end ShortReel.AssetMerge
