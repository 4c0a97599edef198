import Mathlib.Algebra.Order.Ring.Rat
import ShortReel.TransitionSystem
import ShortReel.TableUpdates

/-!
# The lease of the worker

`acquire_or_renew_lease` and `release_lease`, statement by statement: an acquire reads the clock,
updates the row if it is the owner's or has run out, and inserts a row if there was none to update.
Any owners may be anywhere in their calls while others run theirs.
-/

namespace ShortReel.WorkerLease

open TableUpdates

/-- A row of `worker_lease`; the name is its primary key. -/
structure Lease where
  name : String
  ownerId : String
  leaseUntil : ℚ
  updatedAt : ℚ
  deriving DecidableEq, Repr

structure Acquire where
  name : String
  ownerId : String
  ttl : ℚ
  nowEpoch : ℚ
  deriving DecidableEq, Repr

def Acquire.leaseUntil (acquire : Acquire) : ℚ :=
  acquire.nowEpoch + max 1 acquire.ttl

def Acquire.lease (acquire : Acquire) : Lease where
  name := acquire.name
  ownerId := acquire.ownerId
  leaseUntil := acquire.leaseUntil
  updatedAt := acquire.nowEpoch

inductive LeaseEvent where
  | granted (acquire : Acquire) (returnedAt : ℚ)
  | refused (acquire : Acquire) (returnedAt : ℚ)
  | released (name ownerId : String)

/-- The table, the clock, and the acquires under way: those that have yet to update, and those whose
update found nothing. The latest event stands first. -/
structure LeaseState where
  leases : List Lease := []
  clock : ℚ := 0
  updating : List Acquire := []
  inserting : List Acquire := []
  events : List LeaseEvent := []

inductive LeaseStep where
  | wait (time : ℚ)
  | begin (name ownerId : String) (ttl : ℚ)
  | update (acquire : Acquire)
  | insert (acquire : Acquire)
  | release (name ownerId : String)

section Steps

variable (state : LeaseState)

/-- The condition of the update: the row is the owner's, or it has run out. -/
def renewable (acquire : Acquire) (lease : Lease) : Prop :=
  lease.name = acquire.name ∧
    (lease.ownerId = acquire.ownerId ∨ lease.leaseUntil ≤ acquire.nowEpoch)

instance (acquire : Acquire) (lease : Lease) : Decidable (renewable acquire lease) :=
  inferInstanceAs (Decidable (_ ∧ _))

def begin (name ownerId : String) (ttl : ℚ) : LeaseState :=
  { state with updating := ⟨name, ownerId, ttl, state.clock⟩ :: state.updating }

def takeOver (acquire : Acquire) (leases : List Lease) : List Lease :=
  updateWhere (renewable acquire)
    (fun lease => { lease with ownerId := acquire.ownerId
                               leaseUntil := acquire.leaseUntil
                               updatedAt := acquire.nowEpoch }) leases

def update (acquire : Acquire) : LeaseState :=
  if acquire ∉ state.updating then state
  else if rowcount (renewable acquire) state.leases > 0 then
    { state with
      leases := takeOver acquire state.leases
      updating := state.updating.erase acquire
      events := .granted acquire state.clock :: state.events }
  else
    { state with
      updating := state.updating.erase acquire
      inserting := acquire :: state.inserting }

def insert (acquire : Acquire) : LeaseState :=
  if acquire ∉ state.inserting then state
  else if ∃ lease ∈ state.leases, lease.name = acquire.name then
    { state with
      inserting := state.inserting.erase acquire
      events := .refused acquire state.clock :: state.events }
  else
    { state with
      leases := acquire.lease :: state.leases
      inserting := state.inserting.erase acquire
      events := .granted acquire state.clock :: state.events }

def release (name ownerId : String) : LeaseState :=
  { state with
    leases := state.leases.filter fun lease => ¬ (lease.name = name ∧ lease.ownerId = ownerId)
    events := .released name ownerId :: state.events }

def run : LeaseStep → LeaseState
  | .wait time => { state with clock := max state.clock time }
  | .begin name ownerId ttl => begin state name ownerId ttl
  | .update acquire => update state acquire
  | .insert acquire => insert state acquire
  | .release name ownerId => release state name ownerId

end Steps

def leasing : TransitionSystem LeaseState LeaseStep :=
  .ofRun (fun state => state.leases = [] ∧ state.updating = [] ∧ state.inserting = [] ∧
    state.events = []) run

section Told

variable (name ownerId : String)

/-- The time until which an owner was last granted a lease that it has not released since. -/
def grantedUntil : List LeaseEvent → Option ℚ
  | [] => none
  | .granted acquire _ :: earlier =>
      if acquire.name = name ∧ acquire.ownerId = ownerId then some acquire.leaseUntil
      else grantedUntil earlier
  | .refused _ _ :: earlier => grantedUntil earlier
  | .released name' ownerId' :: earlier =>
      if name' = name ∧ ownerId' = ownerId then none else grantedUntil earlier

def holder : List LeaseEvent → Option String
  | [] => none
  | .granted acquire _ :: earlier =>
      if acquire.name = name then some acquire.ownerId else holder earlier
  | .refused _ _ :: earlier => holder earlier
  | .released name' ownerId' :: earlier =>
      if name' = name ∧ holder earlier = some ownerId' then none else holder earlier

end Told

section Statements

variable {leases : List Lease} {acquire : Acquire}

theorem lease_of_renewable {lease : Lease} (h : renewable acquire lease) :
    { lease with ownerId := acquire.ownerId
                 leaseUntil := acquire.leaseUntil
                 updatedAt := acquire.nowEpoch } = acquire.lease := by
  obtain ⟨hname, -⟩ := h
  rw [Acquire.lease, ← hname]

theorem mem_takeOver {lease : Lease} :
    lease ∈ takeOver acquire leases ↔
      (lease ∈ leases ∧ ¬ renewable acquire lease) ∨
        lease = acquire.lease ∧ ∃ old ∈ leases, renewable acquire old := by
  rw [takeOver, mem_updateWhere]
  constructor
  · rintro (hkept | ⟨old, hold, hguard, rfl⟩)
    · exact Or.inl hkept
    · exact Or.inr ⟨lease_of_renewable hguard, old, hold, hguard⟩
  · rintro (hkept | ⟨rfl, old, hold, hguard⟩)
    · exact Or.inl hkept
    · exact Or.inr ⟨old, hold, hguard, lease_of_renewable hguard⟩

theorem names_takeOver : (takeOver acquire leases).map (·.name) = leases.map (·.name) := by
  have hsame : List.Forall₂ (fun old new : Lease => old.name = new.name) leases
      (takeOver acquire leases) :=
    forall₂_updateWhere (fun _ _ _ => rfl) fun _ _ _ => rfl
  exact (forall₂_map_eq (fun _ _ h => h) hsame).symm

end Statements

/-- Names are unique, no clock reading is ahead of the clock, a lease granted and not released stands
until it runs out, and the table shows who was granted one last. -/
structure Sound (state : LeaseState) : Prop where
  unique : (state.leases.map (·.name)).Nodup
  reads : ∀ acquire ∈ state.updating, acquire.nowEpoch ≤ state.clock
  stands : ∀ name ownerId leaseUntil, grantedUntil name ownerId state.events = some leaseUntil →
    leaseUntil ≤ state.clock ∨
      ∃ lease ∈ state.leases, lease.name = name ∧ lease.ownerId = ownerId ∧
        lease.leaseUntil = leaseUntil
  holds : ∀ name ownerId, holder name state.events = some ownerId ↔
    ∃ lease ∈ state.leases, lease.name = name ∧ lease.ownerId = ownerId

/-- A grant comes when what any other owner was granted has run out. -/
def Exclusive (events : List LeaseEvent) : Prop :=
  ∀ acquire returnedAt earlier, .granted acquire returnedAt :: earlier <:+ events →
    ∀ ownerId leaseUntil, ownerId ≠ acquire.ownerId →
      grantedUntil acquire.name ownerId earlier = some leaseUntil → leaseUntil ≤ returnedAt

variable {state : LeaseState}

theorem Sound.exclusive_grant (hsound : Sound state) (hexclusive : Exclusive state.events)
    {acquire : Acquire}
    (hrow : ∀ lease ∈ state.leases, lease.name = acquire.name → lease.ownerId ≠ acquire.ownerId →
      lease.leaseUntil ≤ state.clock) :
    Exclusive (.granted acquire state.clock :: state.events) := by
  intro acquire' returnedAt earlier hsuffix ownerId leaseUntil hne hgranted
  rcases List.suffix_cons_iff.mp hsuffix with heq | hsuffix
  · cases heq
    rcases hsound.stands _ _ _ hgranted with hover | ⟨lease, hlease, hname, rfl, rfl⟩
    · exact hover
    · exact hrow lease hlease hname hne
  · exact hexclusive acquire' returnedAt earlier hsuffix ownerId leaseUntil hne hgranted

theorem Exclusive.cons {events : List LeaseEvent} (hexclusive : Exclusive events)
    {event : LeaseEvent} (hevent : ∀ acquire returnedAt, event ≠ .granted acquire returnedAt) :
    Exclusive (event :: events) := by
  intro acquire returnedAt earlier hsuffix
  rcases List.suffix_cons_iff.mp hsuffix with heq | hsuffix
  · exact absurd (List.cons.inj heq).1.symm (hevent acquire returnedAt)
  · exact hexclusive acquire returnedAt earlier hsuffix

theorem Sound.grant (hsound : Sound state) {acquire : Acquire} {later : LeaseState}
    (hevents : later.events = .granted acquire state.clock :: state.events)
    (hclock : later.clock = state.clock) (hupdating : later.updating ⊆ state.updating)
    (hunique : (later.leases.map (·.name)).Nodup)
    (hrows : ∀ lease, lease.name = acquire.name → (lease ∈ later.leases ↔ lease = acquire.lease))
    (hothers : ∀ lease, lease.name ≠ acquire.name → (lease ∈ later.leases ↔ lease ∈ state.leases))
    (hrow : ∀ lease ∈ state.leases, lease.name = acquire.name → lease.ownerId ≠ acquire.ownerId →
      lease.leaseUntil ≤ state.clock) : Sound later where
  unique := hunique
  reads pending hpending := hclock ▸ hsound.reads pending (hupdating hpending)
  stands name ownerId leaseUntil hgranted := by
    rw [hevents, grantedUntil] at hgranted
    rw [hclock]
    split at hgranted
    · rename_i hown
      obtain ⟨rfl, rfl⟩ := hown
      cases hgranted
      exact Or.inr ⟨acquire.lease, (hrows _ rfl).mpr rfl, rfl, rfl, rfl⟩
    · rename_i hnot
      rcases hsound.stands _ _ _ hgranted with hover | ⟨lease, hlease, hname, howner, huntil⟩
      · exact Or.inl hover
      · by_cases hsame : lease.name = acquire.name
        · refine Or.inl (huntil ▸ hrow lease hlease hsame fun heq => hnot ⟨?_, ?_⟩)
          · rw [← hsame, hname]
          · rw [← heq, howner]
        · exact Or.inr ⟨lease, (hothers lease hsame).mpr hlease, hname, howner, huntil⟩
  holds name ownerId := by
    rw [hevents, holder]
    split
    · rename_i hname
      subst hname
      constructor
      · rintro ⟨⟩
        exact ⟨acquire.lease, (hrows _ rfl).mpr rfl, rfl, rfl⟩
      · rintro ⟨lease, hlease, hname, rfl⟩
        rw [(hrows lease hname).mp hlease]
        rfl
    · rename_i hname
      rw [hsound.holds]
      constructor
      · rintro ⟨lease, hlease, rfl, howner⟩
        exact ⟨lease, (hothers lease fun h => hname h.symm).mpr hlease, rfl, howner⟩
      · rintro ⟨lease, hlease, rfl, howner⟩
        exact ⟨lease, (hothers lease fun h => hname h.symm).mp hlease, rfl, howner⟩

theorem Sound.quiet (hsound : Sound state) {later : LeaseState}
    (hleases : later.leases = state.leases)
    (hgranted : ∀ name ownerId,
      grantedUntil name ownerId later.events = grantedUntil name ownerId state.events)
    (hholder : ∀ name, holder name later.events = holder name state.events)
    (hclock : state.clock ≤ later.clock)
    (hreads : ∀ acquire ∈ later.updating, acquire.nowEpoch ≤ later.clock) : Sound later where
  unique := hleases ▸ hsound.unique
  reads := hreads
  stands name ownerId leaseUntil h := by
    rw [hgranted] at h
    rw [hleases]
    exact (hsound.stands name ownerId leaseUntil h).imp_left fun hover => hover.trans hclock
  holds name ownerId := by rw [hholder, hleases, hsound.holds]

theorem sound_update (hsound : Sound state) (hexclusive : Exclusive state.events)
    (acquire : Acquire) :
    Sound (update state acquire) ∧ Exclusive (update state acquire).events := by
  unfold update
  split
  · exact ⟨hsound, hexclusive⟩
  rename_i hpending
  have hread := hsound.reads acquire (not_not.mp hpending)
  split
  · rename_i hcount
    obtain ⟨old, hold, hguard⟩ := exists_of_rowcount_ne_zero (Nat.pos_iff_ne_zero.mp hcount)
    have hsame : ∀ lease ∈ state.leases, lease.name = acquire.name → lease = old :=
      fun lease hlease hname =>
        List.inj_on_of_nodup_map hsound.unique hlease hold (hname.trans hguard.1.symm)
    have hrow : ∀ lease ∈ state.leases, lease.name = acquire.name →
        lease.ownerId ≠ acquire.ownerId → lease.leaseUntil ≤ state.clock := by
      intro lease hlease hname hother
      rw [hsame lease hlease hname] at hother ⊢
      exact (hguard.2.resolve_left hother).trans hread
    refine ⟨hsound.grant rfl rfl List.erase_subset ?_ ?_ ?_ hrow,
      hsound.exclusive_grant hexclusive hrow⟩
    · rw [names_takeOver]
      exact hsound.unique
    · intro lease hname
      rw [mem_takeOver]
      constructor
      · rintro (⟨hlease, hnot⟩ | ⟨rfl, -⟩)
        · rw [hsame lease hlease hname] at hnot
          exact absurd hguard hnot
        · rfl
      · rintro rfl
        exact Or.inr ⟨rfl, old, hold, hguard⟩
    · intro lease hname
      rw [mem_takeOver]
      constructor
      · rintro (⟨hlease, -⟩ | ⟨rfl, -⟩)
        · exact hlease
        · exact absurd rfl hname
      · exact fun hlease => Or.inl ⟨hlease, fun h => hname h.1⟩
  · refine ⟨hsound.quiet rfl (fun _ _ => rfl) (fun _ => rfl) le_rfl ?_, hexclusive⟩
    exact fun pending hpending => hsound.reads pending (List.erase_subset hpending)

theorem sound_insert (hsound : Sound state) (hexclusive : Exclusive state.events)
    (acquire : Acquire) :
    Sound (insert state acquire) ∧ Exclusive (insert state acquire).events := by
  unfold insert
  split
  · exact ⟨hsound, hexclusive⟩
  split
  · exact ⟨hsound.quiet rfl (fun _ _ => rfl) (fun _ => rfl) le_rfl hsound.reads,
      hexclusive.cons nofun⟩
  · rename_i hfree
    have hnone : ∀ lease ∈ state.leases, lease.name ≠ acquire.name :=
      fun lease hlease hname => hfree ⟨lease, hlease, hname⟩
    have hrow : ∀ lease ∈ state.leases, lease.name = acquire.name →
        lease.ownerId ≠ acquire.ownerId → lease.leaseUntil ≤ state.clock :=
      fun lease hlease hname => absurd hname (hnone lease hlease)
    refine ⟨hsound.grant rfl rfl (List.Subset.refl _) ?_ ?_ ?_ hrow,
      hsound.exclusive_grant hexclusive hrow⟩
    · rw [List.map_cons, List.nodup_cons]
      refine ⟨fun hname => ?_, hsound.unique⟩
      obtain ⟨lease, hlease, hname⟩ := List.mem_map.mp hname
      exact hnone lease hlease hname
    · intro lease hname
      rw [List.mem_cons]
      exact or_iff_left fun hlease => hnone lease hlease hname
    · intro lease hname
      rw [List.mem_cons]
      refine or_iff_right fun heq => hname ?_
      rw [heq]
      rfl

theorem mem_release {name ownerId : String} {lease : Lease} : lease ∈ (release state name ownerId).leases ↔
    lease ∈ state.leases ∧ ¬ (lease.name = name ∧ lease.ownerId = ownerId) := by
  rw [release, List.mem_filter, decide_eq_true_eq]

theorem sound_release (hsound : Sound state) (hexclusive : Exclusive state.events)
    (name ownerId : String) :
    Sound (release state name ownerId) ∧ Exclusive (release state name ownerId).events := by
  refine ⟨⟨?_, hsound.reads, ?_, ?_⟩, hexclusive.cons nofun⟩
  · exact hsound.unique.sublist ((List.filter_sublist).map _)
  · intro name' ownerId' leaseUntil hgranted
    rw [release, grantedUntil] at hgranted
    split at hgranted
    · cases hgranted
    · rename_i hother
      refine (hsound.stands name' ownerId' leaseUntil hgranted).imp_right ?_
      rintro ⟨lease, hlease, rfl, rfl, huntil⟩
      refine ⟨lease, mem_release.mpr ⟨hlease, ?_⟩, rfl, rfl, huntil⟩
      rintro ⟨rfl, rfl⟩
      exact hother ⟨rfl, rfl⟩
  · intro name' ownerId'
    have hbefore := hsound.holds name' ownerId'
    rw [release, holder]
    split
    · rename_i hheld
      obtain ⟨rfl, hheld⟩ := hheld
      refine ⟨nofun, ?_⟩
      rintro ⟨lease, hlease, hname, rfl⟩
      obtain ⟨hlease, hnot⟩ := mem_release.mp hlease
      have howner := (hsound.holds name lease.ownerId).mpr ⟨lease, hlease, hname, rfl⟩
      rw [hheld, Option.some_inj] at howner
      exact absurd ⟨hname, howner.symm⟩ hnot
    · rename_i hheld
      rw [hbefore]
      constructor
      · rintro ⟨lease, hlease, rfl, rfl⟩
        refine ⟨lease, mem_release.mpr ⟨hlease, ?_⟩, rfl, rfl⟩
        rintro ⟨rfl, rfl⟩
        exact hheld ⟨rfl, (hsound.holds _ _).mpr ⟨lease, hlease, rfl, rfl⟩⟩
      · rintro ⟨lease, hlease, hname, howner⟩
        exact ⟨lease, (mem_release.mp hlease).1, hname, howner⟩

theorem sound_run (hsound : Sound state) (hexclusive : Exclusive state.events) (step : LeaseStep) :
    Sound (run state step) ∧ Exclusive (run state step).events := by
  cases step with
  | wait time =>
      refine ⟨hsound.quiet rfl (fun _ _ => rfl) (fun _ => rfl) (le_max_left _ _) ?_, hexclusive⟩
      exact fun acquire hpending => (hsound.reads acquire hpending).trans (le_max_left _ _)
  | begin name ownerId ttl =>
      refine ⟨hsound.quiet rfl (fun _ _ => rfl) (fun _ => rfl) le_rfl ?_, hexclusive⟩
      intro acquire hpending
      rcases List.mem_cons.mp hpending with rfl | hpending
      · exact le_rfl
      · exact hsound.reads acquire hpending
  | update acquire => exact sound_update hsound hexclusive acquire
  | insert acquire => exact sound_insert hsound hexclusive acquire
  | release name ownerId => exact sound_release hsound hexclusive name ownerId

theorem sound_of_reachable (hreach : leasing.Reachable state) :
    Sound state ∧ Exclusive state.events := by
  refine hreach.invariant (fun state => Sound state ∧ Exclusive state.events) ?_ ?_
  · rintro state ⟨hleases, hupdating, -, hevents⟩
    refine ⟨⟨?_, ?_, ?_, ?_⟩, ?_⟩
    · rw [hleases]
      exact List.nodup_nil
    · rw [hupdating]
      exact nofun
    · rw [hevents]
      exact nofun
    · rw [hevents, hleases]
      exact fun _ _ => ⟨nofun, nofun⟩
    · rw [hevents]
      intro acquire returnedAt earlier hsuffix
      exact absurd (List.suffix_nil.mp hsuffix) (List.cons_ne_nil _ _)
  · rintro state step _ - ⟨hsound, hexclusive⟩ - rfl
    exact sound_run hsound hexclusive step

theorem Sound.release_over (hsound : Sound state) {lease : Lease} (hlease : lease ∈ state.leases)
    (hover : lease.leaseUntil ≤ state.clock) {acquire : Acquire} (hname : acquire.name = lease.name)
    (hread : state.clock ≤ acquire.nowEpoch) :
    rowcount (renewable acquire) state.leases > 0 ∧
      (∀ other ∈ (release state lease.name lease.ownerId).leases, other.name ≠ acquire.name) ∧
      ∀ row, row ∈ takeOver acquire state.leases ↔
        row ∈ acquire.lease :: (release state lease.name lease.ownerId).leases := by
  have hguard : renewable acquire lease := ⟨hname.symm, Or.inr (hover.trans hread)⟩
  have hsame : ∀ other ∈ state.leases, other.name = lease.name → other = lease :=
    fun other hother heq => List.inj_on_of_nodup_map hsound.unique hother hlease heq
  refine ⟨?_, ?_, ?_⟩
  · by_contra hnone
    exact rowcount_eq_zero.mp (Nat.eq_zero_of_not_pos hnone) lease hlease hguard
  · intro other hother heq
    obtain ⟨hother, hnot⟩ := mem_release.mp hother
    have := hsame other hother (heq.trans hname)
    exact hnot ⟨by rw [this], by rw [this]⟩
  · intro row
    rw [mem_takeOver, List.mem_cons, mem_release]
    constructor
    · rintro (⟨hrow, hnot⟩ | ⟨hrow, -⟩)
      · refine Or.inr ⟨hrow, ?_⟩
        rintro ⟨heq, -⟩
        exact hnot (hsame row hrow heq ▸ hguard)
      · exact Or.inl hrow
    · rintro (hrow | ⟨hrow, hnot⟩)
      · exact Or.inr ⟨hrow, lease, hlease, hguard⟩
      · refine Or.inl ⟨hrow, fun h => hnot ?_⟩
        have := hsame row hrow (h.1.trans hname)
        exact ⟨by rw [this], by rw [this]⟩

/-- No owner is granted the lease before what another was granted has run out or been released. A
release by an owner that does not hold the lease changes no row, and the release of a lease that has
run out changes nothing for whoever acquires next. -/
theorem lease_exclusive (hreach : leasing.Reachable state) :
    Exclusive state.events ∧
      (∀ name ownerId, holder name state.events ≠ some ownerId →
        (release state name ownerId).leases = state.leases) ∧
      ∀ lease ∈ state.leases, lease.leaseUntil ≤ state.clock →
        ∀ acquire : Acquire, acquire.name = lease.name → state.clock ≤ acquire.nowEpoch →
          rowcount (renewable acquire) state.leases > 0 ∧
          (∀ other ∈ (release state lease.name lease.ownerId).leases,
            other.name ≠ acquire.name) ∧
          ∀ row, row ∈ takeOver acquire state.leases ↔
            row ∈ acquire.lease :: (release state lease.name lease.ownerId).leases := by
  obtain ⟨hsound, hexclusive⟩ := sound_of_reachable hreach
  refine ⟨hexclusive, fun name ownerId hholder => ?_, fun lease hlease hover acquire => ?_⟩
  · refine List.filter_eq_self.mpr fun lease hlease => ?_
    rw [decide_eq_true_eq]
    rintro ⟨hname, howner⟩
    exact hholder ((hsound.holds name ownerId).mpr ⟨lease, hlease, hname, howner⟩)
  · exact hsound.release_over hlease hover

def sampleSteps : List LeaseStep :=
  [.begin "default" "worker-a" 10, .update ⟨"default", "worker-a", 10, 0⟩,
    .insert ⟨"default", "worker-a", 10, 0⟩, .wait 5, .begin "default" "worker-b" 10,
    .update ⟨"default", "worker-b", 10, 5⟩, .insert ⟨"default", "worker-b", 10, 5⟩, .wait 12,
    .begin "default" "worker-b" 10, .update ⟨"default", "worker-b", 10, 12⟩]

theorem lease_exclusive_sample :
    (release (sampleSteps.foldl run {}) "default" "worker-a").leases =
        (sampleSteps.foldl run {}).leases ∧
      (sampleSteps.foldl run {}).leases = [⟨"default", "worker-b", 22, 12⟩] :=
  ⟨(lease_exclusive (TransitionSystem.reachable_foldl (.start ⟨rfl, rfl, rfl, rfl⟩)
    (TransitionSystem.along_true _ sampleSteps))).2.1 "default" "worker-a" (by decide +kernel),
    by decide +kernel⟩

end ShortReel.WorkerLease
