import ShortReel.ComfyGraph

/-!
# Walks up a workflow

Both walks end on every workflow. The ancestors of a node are the other nodes upstream of it, and
without cycles the depth of a node is the length of its longest upstream chain.
-/

namespace ShortReel.ComfyWalks

open ComfyGraph InsertionDict JsonText UpstreamChains

section Walks

variable {κ : Type} [DecidableEq κ] {parents : κ → List κ} {root : κ} {ids : List κ}

structure Within (parents : κ → List κ) (root : κ) (ids : List κ) : Prop where
  root_mem : root ∈ ids
  parent_mem : ∀ node, ∀ parent ∈ parents node, parent ∈ ids

structure Searching (parents : κ → List κ) (root : κ) (search : Search κ) : Prop where
  reached : ∀ node ∈ search.seen, node ≠ root ∧ Relation.TransGen (Above parents) root node
  stacked : ∀ node ∈ search.stack, node = root ∨ node ∈ search.seen
  closed : ∀ node, node = root ∨ node ∈ search.seen → node ∈ search.stack ∨
    ∀ parent ∈ parents node, parent = root ∨ parent ∈ search.seen

def Search.size (ids : List κ) (search : Search κ) : ℕ :=
  search.stack.length + (ids.filter fun node => node ∉ search.seen).length

theorem foldl_visit (root : κ) (candidates : List κ) (search : Search κ) :
    ∃ fresh, candidates.foldl (Search.visit root) search =
        ⟨fresh ++ search.seen, fresh ++ search.stack⟩ ∧ fresh.Nodup ∧
      (∀ node ∈ fresh, node ∈ candidates ∧ node ∉ search.seen ∧ node ≠ root) ∧
      ∀ node ∈ candidates, node = root ∨ node ∈ fresh ++ search.seen := by
  induction candidates generalizing search with
  | nil => exact ⟨[], rfl, List.nodup_nil, by simp, by simp⟩
  | cons candidate candidates ih =>
      rw [List.foldl_cons, Search.visit]
      split
      · rename_i hfresh
        obtain ⟨fresh, heq, hnodup, hmem, hall⟩ :=
          ih ⟨candidate :: search.seen, candidate :: search.stack⟩
        refine ⟨fresh ++ [candidate], ?_, ?_, ?_, ?_⟩
        · rw [heq, List.append_assoc, List.append_assoc]
          rfl
        · refine List.nodup_append.mpr ⟨hnodup, List.nodup_singleton candidate, ?_⟩
          rintro node hnode _ hsame rfl
          rw [List.mem_singleton.mp hsame] at hnode
          exact (hmem candidate hnode).2.1 List.mem_cons_self
        · intro node hnode
          rcases List.mem_append.mp hnode with hnode | hsame
          · obtain ⟨hcandidate, hunseen, hne⟩ := hmem node hnode
            exact ⟨List.mem_cons_of_mem _ hcandidate, mt (List.mem_cons_of_mem _) hunseen, hne⟩
          · rw [List.mem_singleton.mp hsame]
            exact ⟨List.mem_cons_self, hfresh⟩
        · rw [List.append_assoc]
          exact List.forall_mem_cons.mpr ⟨.inr (List.mem_append_right _ List.mem_cons_self), hall⟩
      · rename_i hknown
        obtain ⟨fresh, heq, hnodup, hmem, hall⟩ := ih search
        refine ⟨fresh, heq, hnodup, fun node hnode => ?_, List.forall_mem_cons.mpr ⟨?_, hall⟩⟩
        · obtain ⟨hcandidate, hunseen, hne⟩ := hmem node hnode
          exact ⟨List.mem_cons_of_mem _ hcandidate, hunseen, hne⟩
        · rcases Classical.em (candidate ∈ search.seen) with hseen | hunseen
          · exact .inr (List.mem_append_right _ hseen)
          · exact .inl (by_contra fun hne => hknown ⟨hunseen, hne⟩)

theorem length_unseen_le {seen fresh : List κ} (hnodup : fresh.Nodup)
    (hfresh : ∀ node ∈ fresh, node ∈ ids ∧ node ∉ seen) :
    fresh.length + (ids.filter fun node => node ∉ fresh ++ seen).length ≤
      (ids.filter fun node => node ∉ seen).length := by
  have hsplit := List.length_eq_length_filter_add (l := ids.filter fun node => node ∉ seen)
    fun node => node ∈ fresh
  have hin : fresh.length ≤
      ((ids.filter fun node => node ∉ seen).filter fun node => node ∈ fresh).length := by
    refine (List.Nodup.subperm hnodup fun node hnode => ?_).length_le
    obtain ⟨hid, hunseen⟩ := hfresh node hnode
    simp [hnode, hid, hunseen]
  have hout : (ids.filter fun node => node ∉ fresh ++ seen) =
      (ids.filter fun node => node ∉ seen).filter fun node => !decide (node ∈ fresh) := by
    rw [List.filter_filter]
    refine List.filter_congr fun node _ => ?_
    simp
  rw [hout]
  omega

theorem searching_step (hids : Within parents root ids) {search next : Search κ}
    (h : Searching parents root search) (hstep : search.step parents root = some next) :
    Searching parents root next ∧ Search.size ids next < Search.size ids search := by
  obtain ⟨seen, stack⟩ := search
  cases stack with
  | nil => cases hstep
  | cons current stack =>
      cases hstep
      obtain ⟨hreached, hstacked, hclosed⟩ := h
      obtain ⟨fresh, heq, hnodup, hmem, hall⟩ := foldl_visit root (parents current) ⟨seen, stack⟩
      obtain ⟨hcurrent, hstacked⟩ := List.forall_mem_cons.mp hstacked
      dsimp only at hreached hclosed hstacked hcurrent hmem hall
      rw [heq]
      dsimp only
      have hfrom : ∀ parent ∈ parents current, Relation.TransGen (Above parents) root parent := by
        intro parent hparent
        rcases hcurrent with rfl | hseen
        · exact .single hparent
        · exact (hreached current hseen).2.tail hparent
      refine ⟨⟨fun node hnode => ?_, fun node hnode => ?_, fun node hnode => ?_⟩, ?_⟩
      · rcases List.mem_append.mp hnode with hfresh | hseen
        · exact ⟨(hmem node hfresh).2.2, hfrom node (hmem node hfresh).1⟩
        · exact hreached node hseen
      · rcases List.mem_append.mp hnode with hfresh | hstack
        · exact .inr (List.mem_append_left _ hfresh)
        · exact (hstacked node hstack).imp_right (List.mem_append_right _)
      · rcases eq_or_ne node current with rfl | hne
        · exact .inr hall
        · have hold : node ∈ fresh ∨ node = root ∨ node ∈ seen := by
            rcases hnode with hroot | hnode
            · exact .inr (.inl hroot)
            · exact (List.mem_append.mp hnode).imp_right .inr
          rcases hold with hfresh | hold
          · exact .inl (List.mem_append_left _ hfresh)
          · rcases hclosed node hold with hstack | hparents
            · exact .inl (List.mem_append_right _ ((List.mem_cons.mp hstack).resolve_left hne))
            · exact .inr fun parent hparent =>
                (hparents parent hparent).imp_right (List.mem_append_right _)
      · have hless := @length_unseen_le κ _ ids seen fresh hnodup fun node hnode =>
          ⟨hids.parent_mem current node (hmem node hnode).1, (hmem node hnode).2.1⟩
        unfold Search.size
        rw [List.length_append, List.length_cons]
        dsimp only
        omega

theorem search_spec (hids : Within parents root ids) :
    ∃ last, turns (Search.step parents root) (ids.length + 2) ⟨[], [root]⟩ = some last ∧
      ∀ node, node ∈ last.seen ↔ node ≠ root ∧ Relation.TransGen (Above parents) root node := by
  have hstart : Searching parents root ⟨[], [root]⟩ :=
    ⟨by simp, by simp, fun node hnode => .inl (by simpa using hnode)⟩
  have hsize : Search.size ids ⟨[], [root]⟩ < ids.length + 2 := by
    have hle := List.length_filter_le (fun node => decide (node ∉ ([] : List κ))) ids
    unfold Search.size
    rw [List.length_singleton]
    dsimp only
    omega
  obtain ⟨last, hlast, hends, hreached, -, hclosed⟩ :=
    turns_spec (fun _ _ h hstep => searching_step hids h hstep) hstart hsize
  have hempty : last.stack = [] := by
    obtain ⟨seen, stack⟩ := last
    cases stack with
    | nil => rfl
    | cons current stack => cases hends
  refine ⟨last, hlast, fun node => ⟨hreached node, ?_⟩⟩
  rintro ⟨hne, hnode⟩
  have hseen : node = root ∨ node ∈ last.seen := by
    refine reached_of_closed (P := fun node => node = root ∨ node ∈ last.seen) ?_ (.inl rfl) hnode
    intro child hchild
    rcases hclosed child hchild with hstack | hparents
    · rw [hempty] at hstack
      cases hstack
    · exact hparents
  exact hseen.resolve_left hne

def owner (stack : List (κ × Bool)) : Option κ :=
  (stack.find? Prod.snd).map Prod.fst

def Linked (parents : κ → List κ) : List (κ × Bool) → Prop
  | [] => True
  | entry :: below => (∀ child ∈ owner below, entry.1 ∈ parents child) ∧ Linked parents below

def Awaits (parents : κ → List κ) (settled : κ → Prop) : List (κ × Bool) → List (κ × Bool) → Prop
  | _, [] => True
  | above, entry :: below =>
      (entry.2 = true → ∀ parent ∈ parents entry.1, settled parent ∨ (parent, false) ∈ above) ∧
        Awaits parents settled (entry :: above) below

omit [DecidableEq κ] in
theorem Awaits.mono {settled later : κ → Prop} {above beneath stack : List (κ × Bool)}
    (hsettled : ∀ node, settled node → later node)
    (habove : ∀ node, (node, false) ∈ above → later node ∨ (node, false) ∈ beneath)
    (h : Awaits parents settled above stack) : Awaits parents later beneath stack := by
  induction stack generalizing above beneath with
  | nil => trivial
  | cons entry below ih =>
      refine ⟨fun htrue parent hparent => ?_, ih (fun node hnode => ?_) h.2⟩
      · exact (h.1 htrue parent hparent).elim (fun hnode => .inl (hsettled parent hnode)) (habove parent)
      · rcases List.mem_cons.mp hnode with heq | hnode
        · exact .inr (heq ▸ List.mem_cons_self)
        · exact (habove node hnode).imp_right (List.mem_cons_of_mem _)

omit [DecidableEq κ] in
theorem awaits_append {settled : κ → Prop} {front stack above : List (κ × Bool)}
    (hfront : ∀ entry ∈ front, entry.2 = false)
    (h : Awaits parents settled (front.reverse ++ above) stack) :
    Awaits parents settled above (front ++ stack) := by
  induction front generalizing above with
  | nil => exact h
  | cons entry front ih =>
      obtain ⟨hentry, hfront⟩ := List.forall_mem_cons.mp hfront
      refine ⟨fun htrue => absurd htrue (by rw [hentry]; decide), ih hfront ?_⟩
      rwa [List.reverse_cons, List.append_assoc, List.singleton_append] at h

omit [DecidableEq κ] in
theorem owner_append {front stack : List (κ × Bool)} (hfront : ∀ entry ∈ front, entry.2 = false) :
    owner (front ++ stack) = owner stack := by
  induction front with
  | nil => rfl
  | cons entry front ih =>
      obtain ⟨hentry, hfront⟩ := List.forall_mem_cons.mp hfront
      rw [← ih hfront, owner, owner, List.cons_append, List.find?_cons, hentry]

omit [DecidableEq κ] in
theorem linked_append {front stack : List (κ × Bool)} (hstack : Linked parents stack)
    (hfront : ∀ entry ∈ front, entry.2 = false ∧ ∀ child ∈ owner stack, entry.1 ∈ parents child) :
    Linked parents (front ++ stack) := by
  induction front with
  | nil => exact hstack
  | cons entry front ih =>
      obtain ⟨hentry, hfront⟩ := List.forall_mem_cons.mp hfront
      refine ⟨?_, ih hfront⟩
      change ∀ child ∈ owner (front ++ stack), entry.1 ∈ parents child
      rw [owner_append fun entry hentry => (hfront entry hentry).1]
      exact hentry.2

omit [DecidableEq κ] in
theorem reached_of_linked {entry : κ × Bool} {below : List (κ × Bool)} {node : κ}
    (h : Linked parents (entry :: below)) (hnode : (node, true) ∈ below) :
    Relation.TransGen (Above parents) node entry.1 := by
  induction below generalizing entry with
  | nil => cases hnode
  | cons next below ih =>
      obtain ⟨child, expanded⟩ := next
      obtain ⟨howner, hnext⟩ := h
      cases expanded with
      | true =>
          have hparent : entry.1 ∈ parents child := howner child rfl
          rcases List.mem_cons.mp hnode with heq | hnode
          · cases heq
            exact .single hparent
          · exact (ih hnext hnode).tail hparent
      | false =>
          refine ih ⟨howner, hnext.2⟩ ((List.mem_cons.mp hnode).resolve_left ?_)
          simp

structure Descending (parents : κ → List κ) (root : κ) (ids : List κ) (descent : Descent κ) : Prop where
  apart : descent.stack.Pairwise fun upper lower => lower.2 = true → upper.1 ≠ lower.1
  path : ∀ node, node ∈ descent.onPath ↔ (node, true) ∈ descent.stack
  known : ∀ entry ∈ descent.stack, entry.1 ∈ ids
  waiting : Awaits parents (fun node => node ∈ keys descent.memo ∨ node ∈ descent.onPath) []
    descent.stack
  linked : Linked parents descent.stack
  root_kept : root ∈ keys descent.memo ∨ ∃ expanded, (root, expanded) ∈ descent.stack
  depths : Acyclic parents → ∀ node depth, get descent.memo node = some depth →
    IsGreatest (chainLengths parents node) depth

/-- What a node that is not settled may still put on the stack. -/
def Descent.size (parents : κ → List κ) (ids : List κ) (descent : Descent κ) : ℕ :=
  descent.stack.length + ((ids.filter fun node =>
    node ∉ keys descent.memo ∧ node ∉ descent.onPath).map fun node => 1 + (parents node).length).sum

omit [DecidableEq κ] in
theorem sum_filter_le {p q : κ → Bool} (h : ∀ node, q node = true → p node = true) (weight : κ → ℕ) :
    ((ids.filter q).map weight).sum ≤ ((ids.filter p).map weight).sum := by
  induction ids with
  | nil => exact le_rfl
  | cons node ids ih =>
      rw [List.filter_cons, List.filter_cons]
      split_ifs with hq hp
      · rw [List.map_cons, List.map_cons, List.sum_cons, List.sum_cons]
        omega
      · exact absurd (h node hq) hp
      · rw [List.map_cons, List.sum_cons]
        omega
      · exact ih

omit [DecidableEq κ] in
theorem sum_filter_lt {p q : κ → Bool} (h : ∀ node, q node = true → p node = true) (weight : κ → ℕ)
    {current : κ} (hmem : current ∈ ids) (hp : p current = true) (hq : q current = false) :
    weight current + ((ids.filter q).map weight).sum ≤ ((ids.filter p).map weight).sum := by
  induction ids with
  | nil => cases hmem
  | cons node ids ih =>
      rcases List.mem_cons.mp hmem with rfl | hmem
      · have hle := @sum_filter_le κ ids p q h weight
        rw [List.filter_cons_of_pos hp, List.filter_cons_of_neg (by simp [hq]), List.map_cons,
          List.sum_cons]
        omega
      · have hle := ih hmem
        rw [List.filter_cons, List.filter_cons]
        split_ifs with hqn hpn
        · rw [List.map_cons, List.map_cons, List.sum_cons, List.sum_cons]
          omega
        · exact absurd (h node hqn) hpn
        · rw [List.map_cons, List.sum_cons]
          omega
        · exact hle

variable {memo : Dict κ ℕ} {onPath : List κ} {stack : List (κ × Bool)} {current : κ}

theorem descending_close (h : Descending parents root ids ⟨memo, onPath, (current, true) :: stack⟩) :
    Descending parents root ids
      ⟨put memo current (depthAbove parents memo current), onPath.filter (· ≠ current), stack⟩ := by
  obtain ⟨hapart, hpath, hknown, hwaiting, hlinked, hroot, hdepths⟩ := h
  obtain ⟨hfirst, hapart⟩ := List.pairwise_cons.mp hapart
  dsimp only at hpath hknown hwaiting hlinked hroot hdepths hfirst hapart
  have hsettled : ∀ node, node ∈ keys memo ∨ node ∈ onPath →
      node ∈ keys (put memo current (depthAbove parents memo current)) ∨
        node ∈ onPath.filter (· ≠ current) := by
    intro node hnode
    rcases eq_or_ne node current with rfl | hne
    · exact .inl (mem_keys_put.mpr (.inr rfl))
    · exact hnode.imp (fun hmem => mem_keys_put.mpr (.inl hmem)) fun hmem =>
        List.mem_filter.mpr ⟨hmem, decide_eq_true hne⟩
  refine ⟨hapart, fun node => ?_, (List.forall_mem_cons.mp hknown).2, ?_, hlinked.2, ?_,
    fun hacyclic node depth hdepth => ?_⟩
  · rw [List.mem_filter, hpath, List.mem_cons, decide_eq_true_iff]
    constructor
    · rintro ⟨heq | hmem, hne⟩
      · exact absurd (congrArg Prod.fst heq) hne
      · exact hmem
    · exact fun hmem => ⟨.inr hmem, fun heq => hfirst (node, true) hmem rfl heq.symm⟩
  · refine hwaiting.2.mono hsettled fun node hnode => ?_
    cases List.mem_singleton.mp hnode
  · rcases hroot with hmem | ⟨expanded, hmem⟩
    · exact .inl (mem_keys_put.mpr (.inl hmem))
    · rcases List.mem_cons.mp hmem with heq | hmem
      · exact .inl (mem_keys_put.mpr (.inr (congrArg Prod.fst heq)))
      · exact .inr ⟨expanded, hmem⟩
  · rw [get_put] at hdepth
    split at hdepth
    · rename_i heq
      subst heq
      cases hdepth
      -- On an acyclic graph no parent is still on the path.
      refine isGreatest_chainLengths fun parent hparent => ?_
      have hmem : parent ∈ keys memo := by
        rcases hwaiting.1 rfl parent hparent with (hmem | hon) | habove
        · exact hmem
        · exfalso
          rcases List.mem_cons.mp ((hpath parent).mp hon) with heq | hbelow
          · cases heq
            exact hacyclic _ (.single hparent)
          · exact hacyclic parent ((reached_of_linked hlinked hbelow).tail hparent)
        · cases habove
      obtain ⟨depth, hdepth⟩ := Option.isSome_iff_exists.mp (get_isSome_iff.mpr hmem)
      rw [hdepth]
      exact hdepths hacyclic parent depth hdepth
    · exact hdepths hacyclic node depth hdepth

theorem descending_skip (h : Descending parents root ids ⟨memo, onPath, (current, false) :: stack⟩)
    (hmemo : current ∈ keys memo) : Descending parents root ids ⟨memo, onPath, stack⟩ := by
  obtain ⟨hapart, hpath, hknown, hwaiting, hlinked, hroot, hdepths⟩ := h
  dsimp only at hpath hknown hwaiting hlinked hroot hdepths
  refine ⟨(List.pairwise_cons.mp hapart).2, fun node => ?_, (List.forall_mem_cons.mp hknown).2, ?_,
    hlinked.2, ?_, hdepths⟩
  · rw [hpath, List.mem_cons]
    exact or_iff_right fun heq => absurd (congrArg Prod.snd heq) (by simp)
  · refine hwaiting.2.mono (fun node hnode => hnode) fun node hnode => ?_
    cases List.mem_singleton.mp hnode
    exact .inl (.inl hmemo)
  · rcases hroot with hmem | ⟨expanded, hmem⟩
    · exact .inl hmem
    · rcases List.mem_cons.mp hmem with heq | hmem
      · cases heq
        exact .inl hmemo
      · exact .inr ⟨expanded, hmem⟩

theorem notMem_onPath (h : Descending parents root ids ⟨memo, onPath, (current, false) :: stack⟩) :
    current ∉ onPath := by
  intro hon
  have hmem := (List.mem_cons.mp ((h.path current).mp hon)).resolve_left (by simp)
  exact (List.pairwise_cons.mp h.apart).1 (current, true) hmem rfl rfl

theorem descending_open (hids : Within parents root ids)
    (h : Descending parents root ids ⟨memo, onPath, (current, false) :: stack⟩) :
    Descending parents root ids ⟨memo, current :: onPath,
      (((parents current).filter fun parent => parent ∉ keys memo ∧ parent ∉ current :: onPath).map
        fun parent => (parent, false)).reverse ++ (current, true) :: stack⟩ := by
  have hfresh := notMem_onPath h
  obtain ⟨hapart, hpath, hknown, hwaiting, hlinked, hroot, hdepths⟩ := h
  obtain ⟨hfirst, hapart⟩ := List.pairwise_cons.mp hapart
  dsimp only at hpath hknown hwaiting hlinked hroot hdepths hfirst hapart
  have hfront : ∀ entry ∈ (((parents current).filter fun parent =>
      parent ∉ keys memo ∧ parent ∉ current :: onPath).map fun parent => (parent, false)).reverse,
      entry.2 = false ∧ entry.1 ∈ parents current ∧ entry.1 ∉ current :: onPath := by
    intro entry hentry
    obtain ⟨parent, hparent, rfl⟩ := List.mem_map.mp (List.mem_reverse.mp hentry)
    obtain ⟨hparent, hunsettled⟩ := List.mem_filter.mp hparent
    exact ⟨rfl, hparent, (of_decide_eq_true hunsettled).2⟩
  have hpath' : ∀ node, node ∈ current :: onPath ↔ (node, true) ∈ (current, true) :: stack := by
    intro node
    rw [List.mem_cons, hpath, List.mem_cons, List.mem_cons, Prod.mk.injEq, Prod.mk.injEq]
    simp
  refine ⟨List.pairwise_append.mpr ⟨?_, ?_, ?_⟩, fun node => ?_, ?_, ?_, ?_, ?_, hdepths⟩
  · refine List.pairwise_of_forall_mem_list fun _ _ lower hlower htrue => ?_
    rw [(hfront lower hlower).1] at htrue
    cases htrue
  · exact List.pairwise_cons.mpr ⟨hfirst, hapart⟩
  · intro upper hupper lower hlower htrue heq
    obtain ⟨node, expanded⟩ := lower
    cases htrue
    refine (hfront upper hupper).2.2 ?_
    rw [heq]
    exact (hpath' node).mpr hlower
  · rw [hpath', List.mem_append]
    exact (or_iff_right fun hmem => absurd (hfront _ hmem).1 (by simp)).symm
  · refine List.forall_mem_append.mpr ⟨fun entry hentry => ?_, ?_⟩
    · exact hids.parent_mem current entry.1 (hfront entry hentry).2.1
    · obtain ⟨hcurrent, hstack⟩ := List.forall_mem_cons.mp hknown
      exact List.forall_mem_cons.mpr ⟨hcurrent, hstack⟩
  · refine awaits_append (fun entry hentry => (hfront entry hentry).1) ⟨fun _ parent hparent => ?_, ?_⟩
    · rcases Classical.em (parent ∈ keys memo ∨ parent ∈ current :: onPath) with hsettled | hopen
      · exact .inl hsettled
      · refine .inr (List.mem_append_left _ ?_)
        rw [List.reverse_reverse]
        refine List.mem_map_of_mem (List.mem_filter.mpr ⟨hparent, decide_eq_true ?_⟩)
        exact not_or.mp hopen
    · refine hwaiting.2.mono (fun node hnode => hnode.imp_right (List.mem_cons_of_mem _)) ?_
      intro node hnode
      cases List.mem_singleton.mp hnode
      exact .inl (.inr List.mem_cons_self)
  · exact linked_append hlinked fun entry hentry =>
      ⟨(hfront entry hentry).1, fun child hchild => by
        cases hchild
        exact (hfront entry hentry).2.1⟩
  · refine hroot.imp_right fun hstack => ?_
    obtain ⟨expanded, hmem⟩ := hstack
    rcases List.mem_cons.mp hmem with heq | hmem
    · cases heq
      exact ⟨true, List.mem_append_right _ List.mem_cons_self⟩
    · exact ⟨expanded, List.mem_append_right _ (List.mem_cons_of_mem _ hmem)⟩

theorem descending_step (hids : Within parents root ids) {descent next : Descent κ}
    (h : Descending parents root ids descent) (hstep : descent.step parents = some next) :
    Descending parents root ids next ∧ Descent.size parents ids next < Descent.size parents ids descent := by
  obtain ⟨memo, onPath, stack⟩ := descent
  cases stack with
  | nil => cases hstep
  | cons entry stack =>
      obtain ⟨current, expanded⟩ := entry
      cases expanded with
      | true =>
          cases hstep
          refine ⟨descending_close h, ?_⟩
          have hle : ((ids.filter fun node => node ∉ keys (put memo current
              (depthAbove parents memo current)) ∧
              node ∉ onPath.filter (· ≠ current)).map fun node => 1 + (parents node).length).sum ≤
              ((ids.filter fun node => node ∉ keys memo ∧ node ∉ onPath).map
                fun node => 1 + (parents node).length).sum := by
            refine sum_filter_le (fun node hnode => ?_) _
            obtain ⟨hmemo, hon⟩ := of_decide_eq_true hnode
            rw [mem_keys_put, not_or] at hmemo
            refine decide_eq_true ⟨hmemo.1, fun hmem => hon (List.mem_filter.mpr ⟨hmem, ?_⟩)⟩
            exact decide_eq_true hmemo.2
          unfold Descent.size
          rw [List.length_cons]
          dsimp only at hle ⊢
          omega
      | false =>
          rw [Descent.step] at hstep
          dsimp only at hstep
          split at hstep
          · rename_i hmemo
            cases hstep
            refine ⟨descending_skip h hmemo, ?_⟩
            unfold Descent.size
            rw [List.length_cons]
            dsimp only
            omega
          · rename_i hmemo
            cases hstep
            refine ⟨descending_open hids h, ?_⟩
            have hlt : 1 + (parents current).length +
                ((ids.filter fun node => node ∉ keys memo ∧ node ∉ current :: onPath).map
                  fun node => 1 + (parents node).length).sum ≤
                ((ids.filter fun node => node ∉ keys memo ∧ node ∉ onPath).map
                  fun node => 1 + (parents node).length).sum := by
              refine sum_filter_lt (fun node hnode => ?_) (fun node => 1 + (parents node).length)
                (h.known _ List.mem_cons_self) (decide_eq_true ⟨hmemo, notMem_onPath h⟩) (by simp)
              obtain ⟨hmem, hon⟩ := of_decide_eq_true hnode
              exact decide_eq_true ⟨hmem, mt (List.mem_cons_of_mem _) hon⟩
            have hwaiting := List.length_filter_le
              (fun parent => decide (parent ∉ keys memo ∧ parent ∉ current :: onPath)) (parents current)
            unfold Descent.size
            rw [List.length_append, List.length_reverse, List.length_map, List.length_cons,
              List.length_cons]
            dsimp only at hlt hwaiting ⊢
            omega

theorem descent_spec (hids : Within parents root ids) :
    ∃ last depth, turns (Descent.step parents)
        ((ids.map fun node => 1 + (parents node).length).sum + 2) ⟨[], [], [(root, false)]⟩ = some last ∧
      get last.memo root = some depth ∧
      (Acyclic parents → IsGreatest (chainLengths parents root) depth) := by
  have hstart : Descending parents root ids ⟨[], [], [(root, false)]⟩ :=
    ⟨List.pairwise_singleton .., by simp, by simpa using hids.root_mem, by simp [Awaits],
      by simp [Linked, owner], .inr ⟨false, List.mem_singleton_self _⟩, by simp [InsertionDict.get]⟩
  have hsize : Descent.size parents ids ⟨[], [], [(root, false)]⟩ <
      (ids.map fun node => 1 + (parents node).length).sum + 2 := by
    have hle := @sum_filter_le κ ids (fun _ => true)
      (fun node => decide (node ∉ keys ([] : Dict κ ℕ) ∧ node ∉ ([] : List κ))) (fun _ _ => rfl)
      fun node => 1 + (parents node).length
    rw [List.filter_true] at hle
    unfold Descent.size
    rw [List.length_singleton]
    dsimp only at hle ⊢
    omega
  obtain ⟨last, hlast, hends, hdescending⟩ :=
    turns_spec (fun _ _ h hstep => descending_step hids h hstep) hstart hsize
  have hempty : last.stack = [] := by
    obtain ⟨memo, onPath, stack⟩ := last
    cases stack with
    | nil => rfl
    | cons entry stack =>
        obtain ⟨current, expanded⟩ := entry
        cases expanded with
        | true => cases hends
        | false =>
            rw [Descent.step] at hends
            dsimp only at hends
            split at hends <;> cases hends
  have hroot : root ∈ keys last.memo := by
    rcases hdescending.root_kept with hmem | ⟨expanded, hmem⟩
    · exact hmem
    · rw [hempty] at hmem
      cases hmem
  obtain ⟨depth, hdepth⟩ := Option.isSome_iff_exists.mp (get_isSome_iff.mpr hroot)
  exact ⟨last, depth, hlast, hdepth, fun hacyclic => hdescending.depths hacyclic root depth hdepth⟩

end Walks

section Workflows

variable {F : Type} (str : Json F → Text) (workflow : Fields F)

theorem within_nodeIds (nodeId : Text) :
    Within (parentsOf str workflow) nodeId (nodeIds str workflow nodeId) := by
  refine ⟨List.mem_dedup.mpr List.mem_cons_self, fun node parent hparent => ?_⟩
  refine List.mem_dedup.mpr (List.mem_cons_of_mem _ (List.mem_flatMap.mpr ⟨node, ?_, hparent⟩))
  by_contra hmem
  unfold parentsOf upstreamOf at hparent
  rw [get_eq_none_iff.mpr hmem] at hparent
  cases hparent

theorem ancestors_spec (nodeId : Text) :
    ∃ found, ancestors str workflow nodeId = some found ∧
      ∀ node, node ∈ found ↔
        node ≠ nodeId ∧ Relation.TransGen (Above (parentsOf str workflow)) nodeId node := by
  obtain ⟨last, hlast, hseen⟩ := search_spec (within_nodeIds str workflow nodeId)
  exact ⟨last.seen, by rw [ancestors, hlast]; rfl, hseen⟩

theorem dependencyDepth_spec (nodeId : Text) :
    ∃ depth, dependencyDepth str workflow nodeId = some depth ∧
      (Acyclic (parentsOf str workflow) →
        IsGreatest (chainLengths (parentsOf str workflow) nodeId) depth) := by
  obtain ⟨last, depth, hlast, hdepth, hgreatest⟩ := descent_spec (within_nodeIds str workflow nodeId)
  exact ⟨depth, by rw [dependencyDepth, hlast]; exact hdepth, hgreatest⟩

/-- Both walks end on every workflow. The ancestors of a node are the other nodes that are reached
upstream of it; without cycles its depth is the length of its longest upstream chain, so that its
ancestors are less deep. -/
theorem walks_spec :
    (∀ nodeId, ∃ found, ancestors str workflow nodeId = some found ∧
      ∀ node, node ∈ found ↔
        node ≠ nodeId ∧ Relation.TransGen (Above (parentsOf str workflow)) nodeId node) ∧
    (∀ nodeId, ∃ depth, dependencyDepth str workflow nodeId = some depth ∧
      (Acyclic (parentsOf str workflow) →
        IsGreatest (chainLengths (parentsOf str workflow) nodeId) depth)) ∧
    (Acyclic (parentsOf str workflow) → ∀ upper lower found high low,
      ancestors str workflow lower = some found → upper ∈ found →
      dependencyDepth str workflow upper = some high → dependencyDepth str workflow lower = some low →
      high < low) := by
  refine ⟨ancestors_spec str workflow, dependencyDepth_spec str workflow, ?_⟩
  intro hacyclic upper lower found high low hfound hupper hhigh hlow
  obtain ⟨found', hfound', hmem⟩ := ancestors_spec str workflow lower
  obtain ⟨high', hhigh', hgreatest⟩ := dependencyDepth_spec str workflow upper
  obtain ⟨low', hlow', hgreatest'⟩ := dependencyDepth_spec str workflow lower
  rw [hfound] at hfound'
  rw [hhigh] at hhigh'
  rw [hlow] at hlow'
  cases hfound'
  cases hhigh'
  cases hlow'
  exact lt_of_reached ((hmem upper).mp hupper).2 (hgreatest' hacyclic) (hgreatest hacyclic)

end Workflows

/-! Two nodes that are linked to each other. -/

def linkedNode (source : Text) : Json Unit :=
  .object [(text "inputs", .object [(text "model", .list [.string source, .int 0])])]

def mutualWorkflow : Fields Unit :=
  [(text "1", linkedNode (text "2")), (text "2", linkedNode (text "1"))]

theorem ancestors_mutualWorkflow :
    ∃ found, ancestors (fun _ => []) mutualWorkflow (text "1") = some found ∧ text "1" ∉ found ∧
      Relation.TransGen (Above (parentsOf (fun _ => []) mutualWorkflow)) (text "1") (text "1") := by
  refine ⟨[text "2"], by decide +kernel, by decide +kernel, ?_⟩
  refine Relation.TransGen.head (b := text "2") ?_ (.single ?_)
  · unfold Above
    decide +kernel
  · unfold Above
    decide +kernel

end ShortReel.ComfyWalks
