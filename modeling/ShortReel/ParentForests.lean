import Mathlib.Data.Set.Finite.Basic
import Mathlib.Order.WellFounded

/-!
# Forests by their parents

Each node has a parent or none. The way up from a node is cut where it comes back; a forest is grounded
when the ways down end.
-/

namespace ShortReel.ParentForests

variable {κ : Type*} [DecidableEq κ]

/-- The nodes on the way up, at most as many as there is fuel for, behind those that were seen. -/
def climb (parent : κ → Option κ) : ℕ → List κ → κ → List κ
  | 0, seen, _ => seen
  | n + 1, seen, k =>
      if k ∈ seen then seen
      else
        match parent k with
        | none => seen ++ [k]
        | some above => climb parent n (seen ++ [k]) above

def ancestors (parent : κ → Option κ) (keys : List κ) (k : κ) : List κ :=
  climb parent keys.length [] k

def UpClosed (parent : κ → Option κ) (s : List κ) : Prop :=
  ∀ x ∈ s, ∀ above, parent x = some above → above ∈ s

def Grounded (parent : κ → Option κ) : Prop :=
  WellFounded fun child k => parent child = some k

section Climbing

variable {parent : κ → Option κ} {keys seen : List κ} {k : κ}

omit [DecidableEq κ] in
theorem mem_of_nodup_length (hnodup : seen.Nodup) (hkeys : seen ⊆ keys)
    (hlength : keys.length ≤ seen.length) (hk : k ∈ keys) : k ∈ seen :=
  ((List.subperm_of_subset hnodup hkeys).perm_of_length_le hlength).mem_iff.mpr hk

theorem climb_closed {n : ℕ} (hparents : ∀ x ∈ keys, ∀ above, parent x = some above → above ∈ keys)
    (hnodup : seen.Nodup) (hkeys : seen ⊆ keys) (hfuel : keys.length ≤ n + seen.length)
    (hk : k ∈ keys)
    (hclosed : ∀ x ∈ seen, ∀ above, parent x = some above → above ∈ seen ∨ above = k) :
    seen ⊆ climb parent n seen k ∧ k ∈ climb parent n seen k ∧ UpClosed parent (climb parent n seen k) := by
  have hdone : k ∈ seen → UpClosed parent seen := fun hmem x hx above habove =>
    (hclosed x hx above habove).elim id fun hsame => hsame ▸ hmem
  induction n generalizing seen k with
  | zero =>
      have hmem := mem_of_nodup_length hnodup hkeys (by omega) hk
      exact ⟨List.Subset.refl _, hmem, hdone hmem⟩
  | succ n ih =>
      rw [climb]
      split_ifs with hmem
      · exact ⟨List.Subset.refl _, hmem, hdone hmem⟩
      · have hmore : seen ++ [k] ⊆ keys := by
          intro x hx
          rcases List.mem_append.mp hx with hx | hx
          · exact hkeys hx
          · exact List.mem_singleton.mp hx ▸ hk
        have hfresh : (seen ++ [k]).Nodup :=
          List.nodup_append.mpr ⟨hnodup, List.nodup_singleton k, fun a ha b hb hsame =>
            hmem (List.mem_singleton.mp hb ▸ hsame ▸ ha)⟩
        cases habove : parent k with
        | none =>
            refine ⟨List.subset_append_left _ _, List.mem_append_right _ List.mem_cons_self, ?_⟩
            intro x hx above hup
            rcases List.mem_append.mp hx with hx | hx
            · rcases hclosed x hx above hup with hthere | rfl
              · exact List.mem_append_left _ hthere
              · exact List.mem_append_right _ List.mem_cons_self
            · rw [List.mem_singleton.mp hx, habove] at hup
              cases hup
        | some above =>
            have hnext : ∀ x ∈ seen ++ [k], ∀ up, parent x = some up →
                up ∈ seen ++ [k] ∨ up = above := by
              intro x hx up hup
              rcases List.mem_append.mp hx with hx | hx
              · rcases hclosed x hx up hup with hthere | rfl
                · exact Or.inl (List.mem_append_left _ hthere)
                · exact Or.inl (List.mem_append_right _ List.mem_cons_self)
              · rw [List.mem_singleton.mp hx, habove] at hup
                exact Or.inr (Option.some.inj hup).symm
            have hlength : keys.length ≤ n + (seen ++ [k]).length := by
              rw [List.length_append, List.length_singleton]
              omega
            obtain ⟨hsub, -, hup⟩ := ih hfresh hmore hlength (hparents k hk above habove) hnext
              fun hthere x hx up hup => (hnext x hx up hup).elim id fun hsame => hsame ▸ hthere
            exact ⟨fun x hx => hsub (List.mem_append_left _ hx),
              hsub (List.mem_append_right _ List.mem_cons_self), hup⟩

variable (hparents : ∀ x ∈ keys, ∀ above, parent x = some above → above ∈ keys) (hk : k ∈ keys)
include hparents hk

theorem climb_subset {n : ℕ} (hkeys : seen ⊆ keys) : climb parent n seen k ⊆ keys := by
  induction n generalizing seen k with
  | zero => exact hkeys
  | succ n ih =>
      have hmore : seen ++ [k] ⊆ keys :=
        List.append_subset.mpr ⟨hkeys, List.cons_subset.mpr ⟨hk, List.nil_subset _⟩⟩
      rw [climb]
      split_ifs with hmem
      · exact hkeys
      · cases habove : parent k with
        | none => exact hmore
        | some above => exact ih (hparents k hk above habove) hmore

theorem ancestors_subset : ancestors parent keys k ⊆ keys :=
  climb_subset hparents hk (List.nil_subset _)

theorem mem_ancestors : k ∈ ancestors parent keys k :=
  (climb_closed hparents List.nodup_nil (List.nil_subset _) (Nat.le_refl _) hk
    fun _ hx => absurd hx List.not_mem_nil).2.1

theorem ancestors_upClosed : UpClosed parent (ancestors parent keys k) :=
  (climb_closed hparents List.nodup_nil (List.nil_subset _) (Nat.le_refl _) hk
    fun _ hx => absurd hx List.not_mem_nil).2.2

end Climbing

section Grounding

variable {parent : κ → Option κ} {keys s : List κ} {child k : κ}

theorem Grounded.update (h : Grounded parent) (hclosed : UpClosed parent s) (hk : k ∈ s)
    (hchild : child ∉ s) : Grounded (Function.update parent child (some k)) := by
  have hold : ∀ x above, Function.update parent child (some k) x = some above →
      x = child ∧ above = k ∨ parent x = some above := by
    intro x above habove
    by_cases hsame : x = child
    · rw [hsame, Function.update_self] at habove
      exact Or.inl ⟨hsame, (Option.some.inj habove).symm⟩
    · rw [Function.update_of_ne hsame] at habove
      exact Or.inr habove
  -- below a node outside of the set the forest is the old one
  have houtside : ∀ x, x ∉ s →
      Acc (fun child' above => Function.update parent child (some k) child' = some above) x := by
    intro x
    induction x using h.induction with
    | h x ih =>
        refine fun hx => Acc.intro x fun y hy => ?_
        rcases hold y x hy with ⟨-, rfl⟩ | hbelow
        · exact absurd hk hx
        · exact ih y hbelow fun hmem => hx (hclosed y hmem x hbelow)
  refine ⟨fun x => ?_⟩
  induction x using h.induction with
  | h x ih =>
      refine Acc.intro x fun y hy => ?_
      rcases hold y x hy with ⟨rfl, -⟩ | hbelow
      · exact houtside y hchild
      · exact ih y hbelow

omit [DecidableEq κ] in
theorem Grounded.leaf {parent' : κ → Option κ} (h : Grounded parent)
    (hsame : ∀ x, x ≠ child → parent' x = parent x) (hleaf : ∀ x, parent' x ≠ some child) :
    Grounded parent' := by
  refine ⟨fun x => ?_⟩
  induction x using h.induction with
  | h x ih =>
      refine Acc.intro x fun y hy => ?_
      by_cases hchild : y = child
      · subst hchild
        exact Acc.intro y fun z hz => absurd hz (hleaf z)
      · exact ih y ((hsame y hchild).symm.trans hy)

structure Descent (parent : κ → Option κ) (keys path : List κ) (k : κ) : Prop where
  nodup : path.Nodup
  subset : path ⊆ keys
  below : ∀ x ∈ path, Relation.ReflTransGen (fun a b => parent a = some b) k x

omit [DecidableEq κ] in
theorem Descent.start (hk : k ∈ keys) : Descent parent keys [k] k :=
  ⟨List.nodup_singleton k, List.cons_subset.mpr ⟨hk, List.nil_subset _⟩, fun x hx => by
    rw [List.mem_singleton.mp hx]⟩

omit [DecidableEq κ] in
theorem Grounded.not_above (h : Grounded parent) {x : κ} (hup : parent child = some k)
    (hbelow : Relation.ReflTransGen (fun a b => parent a = some b) k x) : child ≠ x := by
  rintro rfl
  have hloop : Relation.TransGen (fun a b => parent a = some b) child child :=
    Relation.TransGen.head' hup hbelow
  exact h.transGen.asymmetric _ _ hloop hloop

omit [DecidableEq κ] in
theorem Descent.step {path : List κ} (h : Descent parent keys path k) (hgrounded : Grounded parent)
    (hup : parent child = some k) (hchild : child ∈ keys) :
    Descent parent keys (child :: path) child := by
  refine ⟨List.nodup_cons.mpr ⟨fun hmem => ?_, h.nodup⟩, List.cons_subset.mpr ⟨hchild, h.subset⟩, ?_⟩
  · exact hgrounded.not_above hup (h.below child hmem) rfl
  · refine List.forall_mem_cons.mpr ⟨Relation.ReflTransGen.refl, fun x hx => ?_⟩
    exact Relation.ReflTransGen.head hup (h.below x hx)

omit [DecidableEq κ] in
theorem Descent.length_le {path : List κ} (h : Descent parent keys path k) :
    path.length ≤ keys.length :=
  (List.subperm_of_subset h.nodup h.subset).length_le

end Grounding

section Listings

variable {parent : κ → Option κ} {keys roots : List κ} {children listing : κ → List κ}
  (h : Grounded parent)
include h

omit [DecidableEq κ] in
theorem Grounded.acyclic (k : κ) : ¬ Relation.TransGen (fun a b => parent a = some b) k k :=
  fun hloop => h.transGen.asymmetric k k hloop hloop

omit [DecidableEq κ] in
theorem Grounded.up_induction (hclosed : UpClosed parent keys) {P : κ → Prop}
    (hroot : ∀ x ∈ keys, parent x = none → P x)
    (hstep : ∀ x ∈ keys, ∀ above, parent x = some above → P above → P x) : ∀ x ∈ keys, P x := by
  let up (above x : { x // x ∈ keys }) : Prop :=
    Relation.TransGen (fun a b => parent a = some b) x.1 above.1
  have htrans : IsTrans { x // x ∈ keys } up := ⟨fun _ _ _ hab hbc => Relation.TransGen.trans hbc hab⟩
  have hirrefl : Std.Irrefl up := ⟨fun x => h.acyclic x.1⟩
  have hfinite : Finite { x // x ∈ keys } := List.finite_toSet keys
  have hwf : WellFounded up := Finite.wellFounded_of_trans_of_irrefl up
  intro x hx
  induction hnode : (⟨x, hx⟩ : { x // x ∈ keys }) using hwf.induction generalizing x with
  | h node ih =>
      subst hnode
      cases habove : parent x with
      | none => exact hroot x hx habove
      | some above =>
          have hthere := hclosed x hx above habove
          exact hstep x hx above habove
            (ih ⟨above, hthere⟩ (Relation.TransGen.single habove) above hthere rfl)

variable (hlisting : ∀ k, listing k = k :: (children k).flatMap listing)
  (hnodup : ∀ k, (children k).Nodup) (hchildren : ∀ k child, child ∈ children k ↔ parent child = some k)
include hlisting hchildren

theorem count_listing_root {x : κ} (hroot : parent x = none) (k : κ) :
    (listing k).count x = [k].count x := by
  induction k using h.induction with
  | h k ih =>
      rw [hlisting, List.count_cons, List.count_singleton, List.count_eq_zero.mpr, Nat.zero_add]
      intro hmem
      obtain ⟨child, hchild, hbelow⟩ := List.mem_flatMap.mp hmem
      have hcount := ih child ((hchildren k child).mp hchild)
      have hpos := List.count_pos_iff.mpr hbelow
      rw [hcount] at hpos
      have hsame := List.mem_singleton.mp (List.count_pos_iff.mp hpos)
      rw [hsame, (hchildren k child).mp hchild] at hroot
      cases hroot

omit h hlisting hchildren in
theorem count_flatMap_listing {x above : κ} {ks : List κ}
    (hcount : ∀ k ∈ ks, (listing k).count x = [k].count x + (listing k).count above) :
    (ks.flatMap listing).count x = ks.count x + (ks.flatMap listing).count above := by
  induction ks with
  | nil => rfl
  | cons k ks ih =>
      obtain ⟨hhead, hrest⟩ := List.forall_mem_cons.mp hcount
      rw [List.flatMap_cons, List.count_append, List.count_append, hhead, ih hrest,
        List.count_singleton, List.count_cons]
      omega

include hnodup

theorem count_listing_below {x above : κ} (hup : parent x = some above) (k : κ) :
    (listing k).count x = [k].count x + (listing k).count above := by
  induction k using h.induction with
  | h k ih =>
      have hbelow := count_flatMap_listing fun child hchild =>
        ih child ((hchildren k child).mp hchild)
      have hhere : (children k).count x = [k].count above := by
        rw [(hnodup k).count, List.count_singleton]
        refine if_congr ?_ rfl rfl
        rw [hchildren, hup, Option.some_inj, beq_iff_eq, eq_comm]
      rw [List.count_singleton] at hhere ⊢
      rw [hlisting, List.count_cons, List.count_cons, hbelow, hhere]
      omega

theorem listing_perm (hclosed : UpClosed parent keys) (hkeys : keys.Nodup)
    (hbelow : ∀ child above, parent child = some above → child ∈ keys) (hroots : roots.Nodup)
    (htop : ∀ x, x ∈ roots ↔ x ∈ keys ∧ parent x = none) : (roots.flatMap listing).Perm keys := by
  have hcount : ∀ x, parent x = none → (roots.flatMap listing).count x = roots.count x := by
    intro x hroot
    have hsame : List.count x ∘ listing = List.count x ∘ fun k => [k] :=
      funext fun k => count_listing_root h hlisting hchildren hroot k
    rw [List.count_flatMap, hsame, ← List.count_flatMap, List.flatMap_singleton']
  refine List.perm_iff_count.mpr fun x => ?_
  by_cases hx : x ∈ keys
  · rw [List.count_eq_one_of_mem hkeys hx]
    revert x
    refine h.up_induction hclosed (fun x hx hroot => ?_) fun x hx above hup ih => ?_
    · rw [hcount x hroot]
      exact List.count_eq_one_of_mem hroots ((htop x).mpr ⟨hx, hroot⟩)
    · rw [count_flatMap_listing fun k _ => count_listing_below h hlisting hnodup hchildren hup k, ih,
        List.count_eq_zero.mpr]
      intro hroot
      have hnone := ((htop x).mp hroot).2
      rw [hup] at hnone
      cases hnone
  · have hroot : parent x = none := by
      cases hup : parent x with
      | none => rfl
      | some above => exact absurd (hbelow x above hup) hx
    rw [hcount x hroot, List.count_eq_zero.mpr hx, List.count_eq_zero.mpr]
    exact fun hmem => hx ((htop x).mp hmem).1

end Listings

end ShortReel.ParentForests
