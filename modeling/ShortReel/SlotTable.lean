import Mathlib.Data.List.AList

/-!
# Capacities and slots

The two tables of `generation_worker.py`: how many tasks of a provider and media type may run at
once, and which do. A slot is taken by a task that runs, or by one that is pending because it waits
for its turn; buckets that run empty are removed.
-/

namespace ShortReel

def renderMediaType : String := "render"

def renderProviderId : String := "render"

def renderLaneConcurrency : ℕ := 1

structure CapacityTable where
  limits : AList fun _ : String => AList fun _ : String => ℕ
  defaults : AList fun _ : String => ℕ

/-- `CapacityTable.get`: an unknown provider has the default, a lane a provider lacks is closed. -/
def CapacityTable.get (capacity : CapacityTable) (provider media : String) : ℕ :=
  if media = renderMediaType then
    if provider = renderProviderId then renderLaneConcurrency else 0
  else
    match capacity.limits.lookup provider with
    | none => (capacity.defaults.lookup media).getD 0
    | some lanes => (lanes.lookup media).getD 0

/-- What takes a slot: the future of the task, and whether it still waits for its turn. -/
structure Occupant where
  task : ℕ
  pending : Bool := false
  deriving DecidableEq, Repr

abbrev Bucket := AList fun _ : String => Occupant

namespace Bucket

def executing (bucket : Bucket) : List String :=
  (bucket.entries.filter fun entry => entry.2.pending = false).map (·.1)

def finished (done : ℕ → Prop) [DecidablePred done] (bucket : Bucket) :
    List (Sigma fun _ : String => Occupant) :=
  bucket.entries.filter fun entry => entry.2.pending = false ∧ done entry.2.task

theorem mem_executing {bucket : Bucket} {taskId : String} :
    taskId ∈ bucket.executing ↔
      ∃ occupant, bucket.lookup taskId = some occupant ∧ occupant.pending = false := by
  simp only [executing, List.mem_map, List.mem_filter, decide_eq_true_eq, Sigma.exists]
  constructor
  · rintro ⟨taskId, occupant, ⟨hentry, hpending⟩, rfl⟩
    exact ⟨occupant, AList.mem_lookup_iff.mpr hentry, hpending⟩
  · rintro ⟨occupant, hlookup, hpending⟩
    exact ⟨taskId, occupant, ⟨AList.mem_lookup_iff.mp hlookup, hpending⟩, rfl⟩

theorem executing_nodup (bucket : Bucket) : bucket.executing.Nodup :=
  bucket.keys_nodup.sublist ((List.filter_sublist).map _)

theorem executing_length_le (bucket : Bucket) : bucket.executing.length ≤ bucket.keys.length := by
  rw [executing, List.length_map, AList.keys, List.keys, List.length_map]
  exact List.length_filter_le _ _

structure LeftOf (after before : Bucket) : Prop where
  keys : after.keys ⊆ before.keys
  executing : after.executing ⊆ before.executing

theorem LeftOf.refl (bucket : Bucket) : LeftOf bucket bucket :=
  ⟨List.Subset.refl _, List.Subset.refl _⟩

theorem LeftOf.trans {first second third : Bucket} (h₁ : LeftOf third second)
    (h₂ : LeftOf second first) : LeftOf third first :=
  ⟨List.Subset.trans h₁.keys h₂.keys, List.Subset.trans h₁.executing h₂.executing⟩

theorem LeftOf.length_le {after before : Bucket} (h : LeftOf after before) :
    after.keys.length ≤ before.keys.length :=
  (List.subperm_of_subset after.keys_nodup h.keys).length_le

theorem leftOf_empty (bucket : Bucket) : LeftOf ∅ bucket :=
  ⟨List.nil_subset _, List.nil_subset _⟩

theorem leftOf_erase (bucket : Bucket) (taskId : String) : LeftOf (bucket.erase taskId) bucket where
  keys := by
    intro id hid
    exact (AList.mem_erase.mp (AList.mem_keys.mpr hid)).2
  executing := by
    intro id hid
    obtain ⟨occupant, hlookup, hpending⟩ := mem_executing.mp hid
    by_cases heq : id = taskId
    · rw [heq, AList.lookup_erase] at hlookup
      cases hlookup
    · rw [AList.lookup_erase_ne heq] at hlookup
      exact mem_executing.mpr ⟨occupant, hlookup, hpending⟩

theorem leftOf_foldl_erase {β : Type} (key : β → String) (entries : List β) (bucket : Bucket) :
    LeftOf (entries.foldl (fun bucket entry => bucket.erase (key entry)) bucket) bucket := by
  induction entries generalizing bucket with
  | nil => exact .refl bucket
  | cons entry rest ih => exact (ih _).trans (leftOf_erase bucket _)

section Insert

variable {bucket : Bucket} {taskId : String} {occupant : Occupant}

theorem keys_insert_subset : (bucket.insert taskId occupant).keys ⊆ taskId :: bucket.keys := by
  rw [AList.keys_insert]
  exact List.cons_subset_cons _ List.erase_subset

theorem executing_insert_subset :
    executing (bucket.insert taskId occupant) ⊆ taskId :: bucket.executing := by
  intro id hid
  obtain ⟨found, hlookup, hpending⟩ := mem_executing.mp hid
  by_cases heq : id = taskId
  · exact List.mem_cons.mpr (Or.inl heq)
  · rw [AList.lookup_insert_ne heq] at hlookup
    exact List.mem_cons_of_mem _ (mem_executing.mpr ⟨found, hlookup, hpending⟩)

theorem executing_insert_pending (hpending : occupant.pending = true) :
    executing (bucket.insert taskId occupant) ⊆ bucket.executing := by
  intro id hid
  obtain ⟨found, hlookup, hfound⟩ := mem_executing.mp hid
  by_cases heq : id = taskId
  · rw [heq, AList.lookup_insert, Option.some_inj] at hlookup
    rw [← hlookup, hpending] at hfound
    cases hfound
  · rw [AList.lookup_insert_ne heq] at hlookup
    exact mem_executing.mpr ⟨found, hlookup, hfound⟩

end Insert

end Bucket

structure SlotTable where
  slots : AList fun _ : String × String => Bucket := ∅

namespace SlotTable

variable (table : SlotTable) (provider media : String)

def bucket : Bucket :=
  (table.slots.lookup (provider, media)).getD ∅

def withBucket (bucket : Bucket) : SlotTable :=
  if bucket.entries = [] then ⟨table.slots.erase (provider, media)⟩
  else ⟨table.slots.insert (provider, media) bucket⟩

/-- `register`: a task that is there already is replaced. -/
def register (taskId : String) (task : ℕ) (pending : Bool) : SlotTable :=
  table.withBucket provider media ((table.bucket provider media).insert taskId { task, pending })

def promote (taskId : String) : SlotTable :=
  match (table.bucket provider media).lookup taskId with
  | none => table
  | some occupant =>
      table.withBucket provider media
        ((table.bucket provider media).insert taskId { occupant with pending := false })

def release (taskId : String) : SlotTable :=
  table.withBucket provider media ((table.bucket provider media).erase taskId)

/-- `occupied`: the pending ones count. -/
def occupied : ℕ :=
  (table.bucket provider media).keys.length

def hasRoom (capacity : ℕ) : Bool :=
  0 < capacity ∧ table.occupied provider media < capacity

/-- One bucket of `drain_finished`. -/
def drainBucket (done : ℕ → Prop) [DecidablePred done]
    (drained : List (String × ℕ) × SlotTable) (key : String × String) :
    List (String × ℕ) × SlotTable :=
  let bucket := drained.2.bucket key.1 key.2
  let finished := bucket.finished done
  (drained.1 ++ finished.map (fun entry => (entry.1, entry.2.task)),
    drained.2.withBucket key.1 key.2
      (finished.foldl (fun bucket entry => bucket.erase entry.1) bucket))

def drainFinished (done : ℕ → Prop) [DecidablePred done] : List (String × ℕ) × SlotTable :=
  table.slots.keys.foldl (drainBucket done) ([], table)

def allActiveTasks : List ℕ :=
  table.slots.entries.flatMap fun bucket => bucket.2.entries.map (·.2.task)

def activeTaskIds : List String :=
  table.slots.entries.flatMap fun bucket => bucket.2.keys

variable {table provider media} {provider' media' taskId : String}

theorem bucket_withBucket (bucket : Bucket) :
    (table.withBucket provider media bucket).bucket provider' media' =
      if provider' = provider ∧ media' = media then bucket else table.bucket provider' media' := by
  unfold withBucket SlotTable.bucket
  split_ifs with hempty hkey hkey
  · obtain ⟨rfl, rfl⟩ := hkey
    rw [AList.lookup_erase]
    exact AList.ext hempty.symm
  · rw [AList.lookup_erase_ne fun h => hkey (Prod.mk.inj h)]
  · obtain ⟨rfl, rfl⟩ := hkey
    rw [AList.lookup_insert, Option.getD_some]
  · rw [AList.lookup_insert_ne fun h => hkey (Prod.mk.inj h)]

theorem bucket_release :
    (table.release provider media taskId).bucket provider' media' =
      if provider' = provider ∧ media' = media then (table.bucket provider media).erase taskId
      else table.bucket provider' media' :=
  bucket_withBucket _

theorem bucket_register {task : ℕ} {pending : Bool} :
    (table.register provider media taskId task pending).bucket provider' media' =
      if provider' = provider ∧ media' = media then
        (table.bucket provider media).insert taskId { task, pending }
      else table.bucket provider' media' :=
  bucket_withBucket _

theorem bucket_register_of_ne {task : ℕ} {pending : Bool}
    (h : ¬ (provider' = provider ∧ media' = media)) :
    (table.register provider media taskId task pending).bucket provider' media' =
      table.bucket provider' media' := by
  rw [bucket_register, if_neg h]

theorem keys_register {task : ℕ} {pending : Bool} :
    ((table.register provider media taskId task pending).bucket provider media).keys ⊆
      taskId :: (table.bucket provider media).keys := by
  rw [bucket_register, if_pos ⟨rfl, rfl⟩]
  exact Bucket.keys_insert_subset

theorem occupied_register_le {task : ℕ} {pending : Bool} :
    (table.register provider media taskId task pending).occupied provider media ≤
      table.occupied provider media + 1 :=
  (List.subperm_of_subset (AList.keys_nodup _) keys_register).length_le

theorem executing_register_pending {task : ℕ} :
    ((table.register provider media taskId task true).bucket provider media).executing ⊆
      (table.bucket provider media).executing := by
  rw [bucket_register, if_pos ⟨rfl, rfl⟩]
  exact Bucket.executing_insert_pending rfl

theorem leftOf_release :
    ((table.release provider media taskId).bucket provider' media').LeftOf
      (table.bucket provider' media') := by
  rw [bucket_release]
  split_ifs with hkey
  · obtain ⟨rfl, rfl⟩ := hkey
    exact Bucket.leftOf_erase _ _
  · exact .refl _

theorem promote_of_notMem (h : taskId ∉ table.bucket provider media) :
    table.promote provider media taskId = table := by
  unfold promote
  rw [AList.lookup_eq_none.mpr h]

theorem bucket_promote_of_ne (h : ¬ (provider' = provider ∧ media' = media)) :
    (table.promote provider media taskId).bucket provider' media' =
      table.bucket provider' media' := by
  unfold promote
  split
  · rfl
  · rw [bucket_withBucket, if_neg h]

theorem keys_promote :
    ((table.promote provider media taskId).bucket provider' media').keys ⊆
      (table.bucket provider' media').keys := by
  by_cases hkey : provider' = provider ∧ media' = media
  · obtain ⟨rfl, rfl⟩ := hkey
    unfold promote
    split
    · exact List.Subset.refl _
    · rename_i occupant hlookup
      rw [bucket_withBucket, if_pos ⟨rfl, rfl⟩]
      have hmem : taskId ∈ (table.bucket provider' media').keys :=
        AList.mem_keys.mp (AList.lookup_isSome.mp (hlookup ▸ rfl))
      exact List.Subset.trans Bucket.keys_insert_subset
        (List.cons_subset.mpr ⟨hmem, List.Subset.refl _⟩)
  · rw [bucket_promote_of_ne hkey]
    exact List.Subset.refl _

theorem executing_promote :
    ((table.promote provider media taskId).bucket provider media).executing ⊆
      taskId :: (table.bucket provider media).executing := by
  unfold promote
  split
  · exact List.subset_cons_self _ _
  · rw [bucket_withBucket, if_pos ⟨rfl, rfl⟩]
    exact Bucket.executing_insert_subset

theorem leftOf_drainFinished (done : ℕ → Prop) [DecidablePred done] :
    ((table.drainFinished done).2.bucket provider media).LeftOf (table.bucket provider media) := by
  refine List.foldlRecOn (motive := fun drained : List (String × ℕ) × SlotTable =>
    (drained.2.bucket provider media).LeftOf (table.bucket provider media)) _ _ (.refl _) ?_
  intro drained hdrained key _
  refine Bucket.LeftOf.trans ?_ hdrained
  unfold drainBucket
  dsimp only
  rw [bucket_withBucket]
  split_ifs with hkey
  · obtain ⟨rfl, rfl⟩ := hkey
    exact Bucket.leftOf_foldl_erase _ _ _
  · exact .refl _

end SlotTable

end ShortReel
