import ShortReel.EntryProjectionEntries

/-!
# The projector over its calls

What a call returns is what is shown of its entries, whatever the earlier calls have left in the caches.
-/

namespace ShortReel.EntryProjection

open FallibleStates ParentForests

variable {ν : Type}

section Displays

variable {core : Core ν}

/-- From valid caches the computation returns a value, and leaves them valid. -/
def Yields {α : Type} (core : Core ν) (h : core.Sound) (x : Display ν α) (value : α) : Prop :=
  Meets (Caches.Valid core h.grounded) x
    (fun result caches => result = value ∧ caches.Valid core h.grounded) fun _ _ => False

variable (h : core.Sound) {display : FoldKey → Display ν (List (TurnView ν))} {k : FoldKey}

theorem blockView_yields {i : ℕ} (block : Block ν × ℕ)
    (hdisplay : ∀ g, core.parent (some g) = some k →
      Yields core h (display (some g)) (shown core h.grounded (some g))) :
    Yields core h (blockView core display k i block)
      (viewBlock core (shownBelow core h.grounded) k i block) := by
  unfold blockView viewBlock
  cases hg : core.anchoredAt ⟨k, i, block.2⟩ block.1 with
  | none => exact meets_pure fun _ hcaches => ⟨rfl, hcaches⟩
  | some g =>
      refine meets_bind (hdisplay g (parent_of_anchor (anchoredAt_some hg).2)) fun turns => ?_
      refine meets_pure fun caches hcaches => ⟨?_, hcaches.2⟩
      rw [hcaches.1, Option.map_some]
      rfl

theorem cachedAt_some {α : Type} {version : ℕ} {cached : Option (ℕ × α)} {value : α}
    (hcached : cachedAt version cached = some value) : cached = some (version, value) := by
  obtain ⟨pair, hfilter, rfl⟩ := Option.map_eq_some_iff.mp hcached
  obtain ⟨hsome, hversion⟩ := Option.filter_eq_some_iff.mp hfilter
  rw [hsome, ← of_decide_eq_true hversion]

theorem Caches.Valid.cacheTurn {caches : Caches ν} {i : ℕ} {turn : InternalTurn ν}
    (hvalid : caches.Valid core h.grounded) (hturn : (core.folds k).turns[i]? = some turn) :
    Caches.Valid core h.grounded { caches with
      turnView := Function.update caches.turnView k (Function.update (caches.turnView k) i
        (some (turn.version, viewTurn core (shownBelow core h.grounded) k (turn, i)))) } := by
  refine ⟨fun k' j version view hcached => ?_, hvalid.display, hvalid.composed⟩
  dsimp only at hcached
  by_cases hfold : k' = k
  · subst hfold
    rw [Function.update_self] at hcached
    by_cases hplace : j = i
    · subst hplace
      rw [Function.update_self] at hcached
      obtain ⟨rfl, rfl⟩ := Prod.mk.inj (Option.some.inj hcached)
      refine ⟨h.turnVersion k' turn (List.mem_of_getElem? hturn), fun turn' hturn' _ => ?_⟩
      rw [hturn] at hturn'
      rw [Option.some.inj hturn']
    · rw [Function.update_of_ne hplace] at hcached
      exact hvalid.turn k' j version view hcached
  · rw [Function.update_of_ne hfold] at hcached
    exact hvalid.turn k' j version view hcached

theorem turnView_yields {turn : InternalTurn ν × ℕ}
    (hturn : (core.folds k).turns[turn.2]? = some turn.1)
    (hdisplay : ∀ g, core.parent (some g) = some k →
      Yields core h (display (some g)) (shown core h.grounded (some g))) :
    Yields core h (turnView core display k turn)
      (viewTurn core (shownBelow core h.grounded) k turn) := by
  refine meets_get_bind fun caches hvalid => ?_
  cases hcached : cachedAt turn.1.version (caches.turnView k turn.2) with
  | some view =>
      refine meets_pure fun caches' hsame => ⟨?_, hsame ▸ hvalid⟩
      exact (hvalid.turn k turn.2 _ view (cachedAt_some hcached)).2 turn.1 hturn rfl
  | none =>
      have hcontent := meets_mapM fun block (_ : block ∈ turn.1.content.zipIdx) =>
        blockView_yields (i := turn.2) h block hdisplay
      have hbuild : Yields core h (buildTurnView core display k turn)
          (viewTurn core (shownBelow core h.grounded) k turn) :=
        meets_bind hcontent fun content =>
          meets_pure fun caches hcaches => ⟨by rw [hcaches.1]; rfl, hcaches.2⟩
      refine meets_bind (hbuild.pre fun caches' hsame => hsame ▸ hvalid) fun view => ?_
      refine meets_of_forall fun caches hcaches => ?_
      obtain ⟨rfl, hcaches⟩ := hcaches
      refine meets_bind (meets_modify (Q := fun _ caches => caches.Valid core h.grounded) ?_) fun _ =>
        meets_pure fun _ hafter => ⟨rfl, hafter⟩
      rintro _ rfl
      exact hcaches.cacheTurn h hturn

theorem Caches.Valid.cacheDisplay {caches : Caches ν} (hvalid : caches.Valid core h.grounded) :
    Caches.Valid core h.grounded { caches with
      display := Function.update caches.display k
        (some ((core.folds k).version, shown core h.grounded k)) } := by
  refine ⟨hvalid.turn, fun k' version turns hcached => ?_, hvalid.composed⟩
  dsimp only at hcached
  by_cases hfold : k' = k
  · subst hfold
    rw [Function.update_self] at hcached
    obtain ⟨rfl, rfl⟩ := Prod.mk.inj (Option.some.inj hcached)
    exact ⟨h.foldVersion k', fun _ => rfl⟩
  · rw [Function.update_of_ne hfold] at hcached
    exact hvalid.display k' version turns hcached

theorem foldDisplay_yields {n : ℕ} {path : List FoldKey}
    (hpath : Descent core.parent core.keys path k) (hfuel : core.keys.length < n + path.length) :
    Yields core h (foldDisplay core n k) (shown core h.grounded k) := by
  induction n generalizing k path with
  | zero =>
      have hlength := hpath.length_le
      omega
  | succ n ih =>
      have hbelow : ∀ g, core.parent (some g) = some k →
          Yields core h (foldDisplay core n (some g)) (shown core h.grounded (some g)) := by
        intro g hg
        refine ih (hpath.step h.grounded hg (h.child_mem hg)) ?_
        rw [List.length_cons]
        omega
      refine meets_get_bind fun caches hvalid => ?_
      cases hcached : cachedAt (core.folds k).version (caches.display k) with
      | some turns =>
          refine meets_pure fun caches' hsame => ⟨?_, hsame ▸ hvalid⟩
          exact (hvalid.display k _ turns (cachedAt_some hcached)).2 rfl
      | none =>
          have hturns := meets_mapM fun turn (hturn : turn ∈ (core.folds k).turns.zipIdx) =>
            turnView_yields h (List.mem_zipIdx_iff_getElem?.mp hturn) hbelow
          refine meets_bind (hturns.pre fun caches' hsame => hsame ▸ hvalid) fun turns => ?_
          refine meets_of_forall fun caches hcaches => ?_
          obtain ⟨rfl, hcaches⟩ := hcaches
          refine meets_bind (meets_modify (Q := fun _ caches => caches.Valid core h.grounded) ?_)
            fun _ => meets_pure fun _ hafter => ⟨(shown_eq core h.grounded k).symm, hafter⟩
          rintro _ rfl
          have hcache := hcaches.cacheDisplay (k := k) h
          rw [shown_eq] at hcache
          exact hcache

theorem displayed (hk : k ∈ core.keys) :
    Yields core h (foldDisplay core (displayFuel core) k) (shown core h.grounded k) :=
  foldDisplay_yields h (Descent.start hk) (by
    unfold displayFuel
    rw [List.length_singleton]
    omega)

theorem compose_meets : Meets (Caches.Valid core h.grounded) (compose core)
    (fun turns caches => turns = composition core h.grounded ∧
      caches.Valid core h.grounded ∧ caches.composed = turns) fun _ _ => False := by
  unfold compose
  refine meets_ite (fun hclean => ?_) fun hdirty => ?_
  · have hdirty : core.dirty = false := by simpa using hclean
    refine meets_get_bind fun caches hvalid => meets_pure fun _ hsame => ?_
    exact ⟨hvalid.composed hdirty, hsame ▸ hvalid, hsame ▸ rfl⟩
  · have hdirty : core.dirty = true := by simpa using hdirty
    have hcards : Meets (Caches.Valid core h.grounded)
        (core.pending.mapM fun id => do
          let subTurns ← foldDisplay core (displayFuel core) (some id)
          return card core id subTurns)
        (fun cards caches =>
          cards = core.pending.map (fun id => card core id (shown core h.grounded (some id))) ∧
            Caches.Valid core h.grounded caches)
        (fun _ _ => False) :=
      meets_mapM fun id hid =>
        meets_bind (displayed h (List.mem_cons_of_mem _ (List.mem_map_of_mem (h.pending id hid))))
          fun subTurns => meets_pure fun _ hcaches => ⟨by rw [hcaches.1], hcaches.2⟩
    refine meets_bind (displayed h List.mem_cons_self) fun turns => ?_
    refine meets_of_forall fun caches hcaches => ?_
    obtain ⟨rfl, hcaches⟩ := hcaches
    refine meets_bind (hcards.pre fun caches' hsame => hsame ▸ hcaches) fun cards => ?_
    refine meets_of_forall fun caches hcaches => ?_
    obtain ⟨rfl, hcaches⟩ := hcaches
    refine meets_bind (meets_modify (Q := fun _ caches => caches.Valid core h.grounded ∧
      caches.composed = composition core h.grounded) ?_) fun _ => meets_pure fun _ hafter =>
        ⟨rfl, hafter.1, hafter.2⟩
    rintro _ rfl
    refine ⟨⟨hcaches.turn, hcaches.display, fun hclean => ?_⟩, rfl⟩
    rw [hdirty] at hclean
    cases hclean

end Displays

theorem appendTo_dirty (core : Core ν) (dirty : Bool) (k : FoldKey) (entry : TimelineEntry ν) :
    ∃ dirty', ({ core with dirty } : Core ν).appendTo k entry =
      { core.appendTo k entry with dirty := dirty' } := by
  unfold Core.appendTo
  cases entry.type with
  | user => exact ⟨(core.appendUser k entry).dirty, rfl⟩
  | assistant => exact ⟨(core.appendAssistant k entry).dirty, rfl⟩
  | toolResult => exact ⟨(core.appendResult k entry).dirty, rfl⟩
  | system =>
      dsimp only
      unfold Core.appendSystem
      split_ifs
      · exact ⟨_, rfl⟩
      · cases (entry.toolUseId.bind core.sites).filter (·.fold = k) with
        | none => exact ⟨_, rfl⟩
        | some _ => exact ⟨dirty, rfl⟩
      · exact ⟨_, rfl⟩
      · unfold Core.noteOutcome
        cases truthy entry.toolUseId with
        | none => exact ⟨dirty, rfl⟩
        | some id => exact ⟨true, rfl⟩
      · exact ⟨_, rfl⟩
      · exact ⟨dirty, rfl⟩

theorem appendOne_dirty (core : Core ν) (dirty : Bool) (entry : TimelineEntry ν) :
    ∃ dirty', ({ core with dirty } : Core ν).appendOne entry =
      { core.appendOne entry with dirty := dirty' } := by
  unfold Core.appendOne
  cases truthy entry.parentToolUseId with
  | none => exact appendTo_dirty core dirty none entry
  | some id =>
      have hgroup : ∃ dirty', ({ core with dirty } : Core ν).groupFoldFor id =
          { core.groupFoldFor id with dirty := dirty' } := by
        unfold Core.groupFoldFor
        split_ifs
        · exact ⟨dirty, rfl⟩
        · exact ⟨_, rfl⟩
      obtain ⟨dirty', hgroup⟩ := hgroup
      dsimp only
      rw [hgroup]
      exact appendTo_dirty (core.groupFoldFor id) dirty' (some id) entry

theorem appendAll_dirty (core : Core ν) (dirty : Bool) (entries : List (TimelineEntry ν)) :
    ∃ dirty', entries.foldl Core.appendOne ({ core with dirty } : Core ν) =
      { entries.foldl Core.appendOne core with dirty := dirty' } := by
  induction entries generalizing core dirty with
  | nil => exact ⟨dirty, rfl⟩
  | cons entry entries ih =>
      obtain ⟨dirty', hentry⟩ := appendOne_dirty core dirty entry
      obtain ⟨dirty'', hrest⟩ := ih (core.appendOne entry) dirty'
      exact ⟨dirty'', by rw [List.foldl_cons, List.foldl_cons, hentry, hrest]⟩

def replay (entries : List (EntryObject ν)) : Core ν :=
  (entries.map Prod.snd).foldl Core.appendOne Core.empty

theorem replay_sound (entries : List (EntryObject ν)) : (replay entries).Sound :=
  (appendAll_step Core.empty_sound _).sound

noncomputable def shownAll (entries : List (EntryObject ν)) : List (TurnView ν) :=
  composition (replay entries) (replay_sound entries).grounded

structure Projector.Ready (projector : Projector ν) : Prop where
  core : ∃ dirty, projector.core = { replay projector.source with dirty }
  sound : projector.core.Sound
  valid : projector.caches.Valid projector.core sound.grounded

theorem create_ready : (Projector.create : Projector ν).Ready :=
  ⟨⟨true, rfl⟩, Core.empty_sound, Caches.empty_valid _ rfl⟩

theorem composition_dirty {core core' : Core ν} {dirty : Bool} (h : core.Sound) (h' : core'.Sound)
    (hsame : core' = { core with dirty }) :
    composition core' h'.grounded = composition core h.grounded := by
  subst hsame
  rfl

theorem Caches.Valid.clean {core : Core ν} {caches : Caches ν} (h : core.Sound)
    (h' : ({ core with dirty := false } : Core ν).Sound) (hvalid : caches.Valid core h.grounded)
    (hcomposed : caches.composed = composition core h.grounded) :
    caches.Valid { core with dirty := false } h'.grounded :=
  ⟨hvalid.turn, hvalid.display, fun _ => hcomposed⟩

theorem sound_dirty {core : Core ν} (h : core.Sound) (dirty : Bool) :
    ({ core with dirty } : Core ν).Sound :=
  ⟨h.foldVersion, h.turnVersion, h.absent, h.pending, h.group, h.anchor, h.site, h.grounded⟩

theorem project_from {projector : Projector ν} {entries : List (EntryObject ν)}
    (hready : projector.Ready)
    (hfront : (entries.take projector.source.length).map Prod.snd = projector.source.map Prod.snd) :
    let core := ((entries.drop projector.source.length).map Prod.snd).foldl Core.appendOne
      projector.core
    ∃ caches, compose core projector.caches = .ok (shownAll entries) caches ∧
      Projector.Ready { core := { core with dirty := false }, caches, source := entries } := by
  intro core
  obtain ⟨dirty, hcore⟩ := hready.core
  have hstep := appendAll_step hready.sound ((entries.drop projector.source.length).map Prod.snd)
  have hvalid := hready.valid.refresh hready.sound hstep.sound hstep.refreshes hstep.settled
  have hreplay : ∃ dirty', core = { replay entries with dirty := dirty' } := by
    obtain ⟨dirty', hall⟩ := appendAll_dirty (replay projector.source) dirty
      ((entries.drop projector.source.length).map Prod.snd)
    refine ⟨dirty', ?_⟩
    change List.foldl _ _ _ = _
    rw [hcore, hall]
    unfold replay
    rw [← List.foldl_append, ← hfront, ← List.map_append, List.take_append_drop]
  obtain ⟨dirty', hreplay⟩ := hreplay
  cases hrun : compose core projector.caches with
  | error e caches => exact ((compose_meets hstep.sound).error hvalid hrun).elim
  | ok turns caches =>
      have hok := (compose_meets hstep.sound).ok hvalid hrun
      have hshown := composition_dirty (replay_sound entries) hstep.sound hreplay
      refine ⟨caches, by rw [hok.1, hshown]; rfl, ?_⟩
      refine ⟨⟨false, ?_⟩, sound_dirty hstep.sound false,
        hok.2.1.clean hstep.sound (sound_dirty hstep.sound false) (hok.2.2.trans hok.1)⟩
      exact congrArg (fun core : Core ν => { core with dirty := false }) hreplay

theorem project_shows {projector : Projector ν} {entries : List (EntryObject ν)}
    (hready : projector.Ready) (hfront : extendsPrefix projector.source entries = true →
      (entries.take projector.source.length).map Prod.snd = projector.source.map Prod.snd) :
    ∃ projector', projector.project entries = some (shownAll entries, projector') ∧
      projector'.Ready ∧ projector'.source = entries := by
  unfold Projector.project
  cases hextends : extendsPrefix projector.source entries with
  | true =>
      obtain ⟨caches, hcompose, hready'⟩ := project_from hready (hfront hextends)
      refine ⟨_, ?_, hready', rfl⟩
      rw [if_pos rfl]
      dsimp only
      rw [hcompose]
  | false =>
      obtain ⟨caches, hcompose, hready'⟩ := @project_from ν _ entries create_ready rfl
      refine ⟨_, ?_, hready', rfl⟩
      rw [if_neg Bool.false_ne_true]
      dsimp only
      rw [hcompose]

theorem projectEntriesToTurns_eq (entries : List (EntryObject ν)) :
    projectEntriesToTurns entries = some (shownAll entries) := by
  obtain ⟨projector', hproject, -⟩ := @project_shows ν _ entries create_ready fun _ => rfl
  unfold projectEntriesToTurns
  rw [hproject, Option.map_some]

section Growing

theorem take_eq_of_ascending {α : Type} {f : α → ℤ} {xs ys : List α}
    (hxs : xs.Pairwise fun a b => f a < f b) (hys : ys.Pairwise fun a b => f a < f b)
    (hsub : xs ⊆ ys) (hlast : ys[xs.length - 1]? = xs[xs.length - 1]?) : ys.take xs.length = xs := by
  cases hempty : xs.length with
  | zero =>
      rw [List.length_eq_zero_iff.mp hempty]
      rfl
  | succ n =>
      rw [hempty, Nat.add_sub_cancel] at hlast
      have hn : n < xs.length := by omega
      rw [List.getElem?_eq_getElem hn] at hlast
      obtain ⟨hn', hsame⟩ := List.getElem?_eq_some_iff.mp hlast
      have hmem : xs ⊆ ys.take (n + 1) := by
        intro a ha
        obtain ⟨i, hi, rfl⟩ := List.mem_iff_getElem.mp ha
        obtain ⟨j, hj, hat⟩ := List.mem_iff_getElem.mp (hsub ha)
        have hle : f xs[i] ≤ f xs[n] := by
          rcases Nat.lt_or_ge i n with hlt | hge
          · exact (List.pairwise_iff_getElem.mp hxs i n hi hn hlt).le
          · obtain rfl : i = n := by omega
            exact Int.le_refl _
        have hj' : j < n + 1 := by
          by_contra hlate
          have hlt := List.pairwise_iff_getElem.mp hys n j hn' hj (by omega)
          rw [hsame, hat] at hlt
          omega
        exact List.mem_take_iff_getElem.mpr ⟨j, by omega, hat⟩
      have hnodup : xs.Nodup := hxs.imp fun hlt hsame => by
        rw [hsame] at hlt
        omega
      have hperm := (List.subperm_of_subset hnodup hmem).perm_of_length_le (by
        rw [List.length_take]
        omega)
      refine (hperm.eq_of_pairwise (fun a b _ _ hlt hgt => ?_) hxs
        (hys.sublist (List.take_sublist _ _))).symm
      omega

def objects (store : ℕ → TimelineEntry ν) (refs : List ℕ) : List (EntryObject ν) :=
  refs.map fun ref => (ref, store ref)

theorem objects_values (store : ℕ → TimelineEntry ν) (refs : List ℕ) :
    (objects store refs).map Prod.snd = refs.map store :=
  List.map_map

theorem getElem?_objects (store : ℕ → TimelineEntry ν) (refs : List ℕ) (i : ℕ) :
    (objects store refs)[i]?.map Prod.fst = refs[i]? := by
  unfold objects
  rw [List.getElem?_map, Option.map_map]
  exact Option.map_id'

variable {store : ℕ → TimelineEntry ν} {previous refs : List ℕ}

theorem values_of_extendsPrefix
    (hprevious : previous.Pairwise fun a b => (store a).seq < (store b).seq)
    (hrefs : refs.Pairwise fun a b => (store a).seq < (store b).seq)
    (hgrows : ∀ ref ∈ previous, store ref ∈ refs.map store)
    (hextends : extendsPrefix (objects store previous) (objects store refs) = true) :
    ((objects store refs).take (objects store previous).length).map Prod.snd =
      (objects store previous).map Prod.snd := by
  cases previous with
  | nil => rfl
  | cons ref rest =>
      have hlength : (objects store (ref :: rest)).length = (ref :: rest).length := List.length_map _
      have hsub : (ref :: rest).map store ⊆ refs.map store := by
        intro entry hentry
        obtain ⟨r, hr, rfl⟩ := List.mem_map.mp hentry
        exact hgrows r hr
      have hends : refs[rest.length]? = (ref :: rest)[rest.length]? := by
        unfold extendsPrefix at hextends
        obtain ⟨-, hends⟩ := Bool.and_eq_true_iff.mp hextends
        rcases Bool.or_eq_true_iff.mp hends with hempty | hends
        · cases hempty
        · obtain ⟨-, hlast⟩ := Bool.and_eq_true_iff.mp hends
          have hlast := of_decide_eq_true hlast
          rwa [getElem?_objects, getElem?_objects, hlength, List.length_cons,
            Nat.add_sub_cancel] at hlast
      have htake := take_eq_of_ascending (f := TimelineEntry.seq) (List.pairwise_map.mpr hprevious)
        (List.pairwise_map.mpr hrefs) hsub (by
          rw [List.length_map, List.length_cons, Nat.add_sub_cancel, List.getElem?_map,
            List.getElem?_map, hends])
      rw [List.map_take, objects_values, objects_values, hlength]
      rwa [List.length_map] at htake

theorem projectAll_shows {projector : Projector ν} {lists : List (List ℕ)}
    (hready : projector.Ready) (hsource : projector.source = objects store previous)
    (hprevious : previous.Pairwise fun a b => (store a).seq < (store b).seq)
    (hascending : ∀ refs ∈ lists, refs.Pairwise fun a b => (store a).seq < (store b).seq)
    (hgrows : (previous :: lists).IsChain fun earlier later =>
      ∀ ref ∈ earlier, store ref ∈ later.map store) :
    projector.projectAll (lists.map (objects store)) =
      some (lists.map fun refs => shownAll (objects store refs)) := by
  induction lists generalizing projector previous with
  | nil => rfl
  | cons refs lists ih =>
      obtain ⟨hrefs, hlists⟩ := List.forall_mem_cons.mp hascending
      obtain ⟨hstep, hrest⟩ := List.isChain_cons_cons.mp hgrows
      obtain ⟨projector', hproject, hready', hsource'⟩ :=
        @project_shows ν _ (objects store refs) hready fun hextends => by
          rw [hsource] at hextends ⊢
          exact values_of_extendsPrefix hprevious hrefs hstep hextends
      have hothers := ih hready' hsource' hrefs hlists hrest
      rw [List.map_cons, Projector.projectAll, hproject]
      change (projector'.projectAll (lists.map (objects store))).bind _ = _
      rw [hothers]
      rfl

/-- Over lists that are strictly ascending and grow, each call of one projector returns what the full
projection of its list returns. -/
theorem projectAll_eq_projectEntriesToTurns (lists : List (List ℕ))
    (hascending : ∀ refs ∈ lists, refs.Pairwise fun a b => (store a).seq < (store b).seq)
    (hgrows : lists.IsChain fun earlier later => ∀ ref ∈ earlier, store ref ∈ later.map store) :
    ∃ results, Projector.create.projectAll (lists.map (objects store)) = some results ∧
      results.map some = lists.map fun refs => projectEntriesToTurns (objects store refs) := by
  have hchain : ([] :: lists).IsChain fun earlier later => ∀ ref ∈ earlier, store ref ∈ later.map store := by
    cases lists with
    | nil => exact List.IsChain.singleton _
    | cons refs lists =>
        exact List.isChain_cons_cons.mpr ⟨fun ref href => absurd href List.not_mem_nil, hgrows⟩
  refine ⟨_, projectAll_shows create_ready rfl List.Pairwise.nil hascending hchain, ?_⟩
  rw [List.map_map]
  exact List.map_congr_left fun refs _ => (projectEntriesToTurns_eq (objects store refs)).symm

def assistantEntry (seq : ℤ) (parent : Option String) (blocks : List (Block Unit)) :
    TimelineEntry Unit where
  seq
  type := .assistant
  content := .blocks blocks
  uuid := none
  timestamp := none
  parentToolUseId := parent
  toolUseId := none
  isError := false
  subtype := none
  taskId := none
  description := none
  summary := none
  taskStatus := none
  usage := none
  skillName := none
  skillArgs := none
  answers := none
  failure := none

def lateAnchor : ℕ → TimelineEntry Unit
  | 0 => assistantEntry 1 none
      [{ Block.empty .toolUse with id := some "task", name := some "Agent" }]
  | _ => assistantEntry 2 (some "task") [{ Block.empty .text with text := some "working" }]

theorem projectAll_lateAnchor :
    ∃ results, Projector.create.projectAll ([[1], [0, 1], [0, 1]].map (objects lateAnchor)) =
        some results ∧
      results.map some = [[1], [0, 1], [0, 1]].map fun refs =>
        projectEntriesToTurns (objects lateAnchor refs) := by
  refine projectAll_eq_projectEntriesToTurns [[1], [0, 1], [0, 1]] ?_ ?_
  · intro refs hrefs
    simp only [List.mem_cons, List.not_mem_nil, or_false] at hrefs
    rcases hrefs with rfl | rfl | rfl <;> simp [lateAnchor, assistantEntry]
  · simp

end Growing

end ShortReel.EntryProjection
