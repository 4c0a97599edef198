import ShortReel.CrossfadeWindows

/-!
# The streams of a segment

Around an overlapping transition both clips are lengthened: the one before the cut by the frames of
the window after it, the one after the cut by the frames before it. Chained through `xfade`, the
streams of a segment add up to its frames.
-/

namespace ShortReel.SegmentStreams

open TimelineModel RenderPlan RenderLayout CrossfadeWindows

section Borrowing

variable (profile : OutputProfile)

/-- What a clip takes from its source behind its end, into the window of its transition. -/
def trailOf (item : PlannedClip) : Extension :=
  match overlap item.clip with
  | none => {}
  | some transition =>
      let tailUs : ℤ :=
        if item.holdFrames ≠ 0 then 0 else item.clip.mediaDurationUs - item.clip.sourceOutUs
      borrowFrames (windowFrames profile transition).2 tailUs profile.fps

/-- What a clip takes from its source before its start, into the window of the one before it. -/
def leadOf (previous following : RenderClip) : Extension :=
  match overlap previous with
  | none => {}
  | some transition =>
      borrowFrames (windowFrames profile transition).1 following.sourceInUs profile.fps

/-- Clips in a row, the first one with this lead, each with what the cuts on both sides ask for. -/
def Borrowed : (lead : Extension) → List PlannedClip → Prop
  | _, [] => True
  | lead, item :: rest =>
      item.lead = lead ∧
        match rest with
        | [] => item.trail = {}
        | next :: _ =>
            item.trail = trailOf profile item ∧ Borrowed (leadOf profile item.clip next.clip) rest

def Plain (planned : PlannedClip) : Prop :=
  planned.lead = {} ∧ planned.trail = {}

theorem plain_layOutFrom (clips : List RenderClip) (startUs : ℕ) :
    ∀ planned ∈ (layOutFrom profile startUs clips).1, Plain planned := by
  induction clips generalizing startUs with
  | nil => exact fun planned h => absurd h List.not_mem_nil
  | cons clip clips ih =>
      rw [layOutFrom]
      split
      · rw [List.forall_mem_cons]
        exact ⟨⟨rfl, rfl⟩, ih _⟩
      · exact ih _

structure Joined (previous following : PlannedClip) (joined : PlannedClip × PlannedClip) : Prop where
  clip_previous : joined.1.clip = previous.clip
  hold_previous : joined.1.holdFrames = previous.holdFrames
  lead_previous : joined.1.lead = previous.lead
  trail_previous : joined.1.trail = trailOf profile previous
  clip_following : joined.2.clip = following.clip
  hold_following : joined.2.holdFrames = following.holdFrames
  lead_following : joined.2.lead = leadOf profile previous.clip following.clip
  trail_following : joined.2.trail = following.trail

theorem overlaps_iff (transition : Transition) :
    (transitionPreset transition.type).overlaps =
      (transitionPreset transition.type).fadeColor.isNone :=
  rfl

theorem join_joined {previous following : PlannedClip} (hprevious : previous.trail = {})
    (hfollowing : following.lead = {}) :
    Joined profile previous following (join profile previous following) := by
  cases htransition : previous.clip.transitionToNext with
  | none =>
      have hoverlap : overlap previous.clip = none := by rw [overlap, htransition]; rfl
      have hjoin : join profile previous following = (previous, following) := by
        rw [join, htransition]
      rw [hjoin]
      constructor <;> simp [trailOf, leadOf, hoverlap, hprevious, hfollowing]
  | some transition =>
      cases hcolor : (transitionPreset transition.type).fadeColor with
      | none =>
          have hoverlap : overlap previous.clip = some transition := by
            simp [overlap, htransition, overlaps_iff, hcolor]
          constructor <;> simp [join, trailOf, leadOf, htransition, hcolor, hoverlap]
      | some color =>
          have hoverlap : overlap previous.clip = none := by
            simp [overlap, htransition, overlaps_iff, hcolor]
          constructor <;>
            simp [join, trailOf, leadOf, htransition, hcolor, hoverlap, hprevious, hfollowing]

theorem trailOf_congr {first second : PlannedClip} (hclip : first.clip = second.clip)
    (hhold : first.holdFrames = second.holdFrames) : trailOf profile first = trailOf profile second := by
  rw [trailOf, trailOf, hclip, hhold]

theorem joinFrom_eq_cons (previous : PlannedClip) (planned : List PlannedClip) :
    ∃ first rest, joinFrom profile previous planned = first :: rest ∧
      first.clip = previous.clip := by
  have hsame : List.Forall₂ SameFrames (previous :: planned) (joinFrom profile previous planned) :=
    joinFrom_sameFrames profile ⟨rfl, rfl, rfl⟩
  cases hjoined : joinFrom profile previous planned with
  | nil =>
      rw [hjoined] at hsame
      cases hsame
  | cons first rest =>
      rw [hjoined] at hsame
      cases hsame with
      | cons hfirst _ => exact ⟨first, rest, rfl, hfirst.1.symm⟩

theorem borrowed_joinFrom {previous : PlannedClip} {planned : List PlannedClip}
    (hprevious : previous.trail = {}) (hplanned : ∀ item ∈ planned, Plain item) :
    Borrowed profile previous.lead (joinFrom profile previous planned) := by
  induction planned generalizing previous with
  | nil => exact ⟨rfl, hprevious⟩
  | cons following planned ih =>
      rw [List.forall_mem_cons] at hplanned
      obtain ⟨⟨hlead, htrail⟩, hrest⟩ := hplanned
      have hjoined := join_joined profile hprevious hlead
      have hfollowing := ih (hjoined.trail_following.trans htrail) hrest
      obtain ⟨first, rest, hcons, hclip⟩ := joinFrom_eq_cons profile
        (join profile previous following).2 planned
      rw [hjoined.lead_following] at hfollowing
      rw [joinFrom]
      rw [hcons] at hfollowing ⊢
      refine ⟨hjoined.lead_previous, ?_, ?_⟩
      · rw [hjoined.trail_previous]
        exact trailOf_congr profile hjoined.clip_previous.symm hjoined.hold_previous.symm
      · rwa [hjoined.clip_previous, hclip, hjoined.clip_following]

theorem borrowed_joinAll {planned : List PlannedClip} (hplanned : ∀ item ∈ planned, Plain item) :
    Borrowed profile {} (joinAll profile planned) := by
  cases planned with
  | nil => trivial
  | cons first planned =>
      rw [List.forall_mem_cons] at hplanned
      have hborrowed := borrowed_joinFrom profile hplanned.1.2 hplanned.2
      rwa [hplanned.1.1] at hborrowed

theorem frames_borrowFrames (needed availableUs : ℤ) (fps : ℚ) :
    (borrowFrames needed availableUs fps).frames = needed := by
  simp only [borrowFrames, Extension.frames]
  omega

theorem frames_trailOf (item : PlannedClip) :
    (trailOf profile item).frames = incomingFrames profile item.clip := by
  unfold trailOf incomingFrames
  cases overlap item.clip with
  | none => rfl
  | some transition => exact frames_borrowFrames _ _ _

theorem frames_leadOf (previous following : RenderClip) :
    (leadOf profile previous following).frames = outgoingFrames profile previous := by
  unfold leadOf outgoingFrames
  cases overlap previous with
  | none => rfl
  | some transition => exact frames_borrowFrames _ _ _

end Borrowing

/-- The streams of a segment through `xfade`, one clip after the other: each crossfade covers its
frames of what there is and of the stream of the next clip. None when a window does not end with the
accumulated stream, or when clips and crossfades do not match. -/
def xfadeChain : (accumulated : ℤ) → List PlannedClip → List Crossfade → Option ℤ
  | accumulated, [], [] => some accumulated
  | accumulated, next :: clips, crossfade :: crossfades =>
      if crossfade.offsetFrames + crossfade.frames = accumulated then
        xfadeChain (accumulated + next.streamFrames - crossfade.frames) clips crossfades
      else none
  | _, _, _ => none

/-- The length of the picture `segment_args` renders. -/
def chainFrames (clips : List PlannedClip) (crossfades : List Crossfade) : Option ℤ :=
  match clips with
  | [] => none
  | first :: rest => xfadeChain first.streamFrames rest crossfades

theorem xfadeChain_append {accumulated total : ℤ} {clips : List PlannedClip}
    {crossfades : List Crossfade} (h : xfadeChain accumulated clips crossfades = some total)
    {next : PlannedClip} {crossfade : Crossfade}
    (hends : crossfade.offsetFrames + crossfade.frames = total) :
    xfadeChain accumulated (clips ++ [next]) (crossfades ++ [crossfade]) =
      some (total + next.streamFrames - crossfade.frames) := by
  fun_induction xfadeChain accumulated clips crossfades with
  | case1 accumulated =>
      cases h
      simp [xfadeChain, hends]
  | case2 first clips head crossfades ih =>
      rw [List.cons_append, List.cons_append, xfadeChain, if_pos rfl]
      exact ih h
  | case3 => cases h
  | case4 => cases h

theorem chainFrames_append {total : ℤ} {clips : List PlannedClip} {crossfades : List Crossfade}
    (h : chainFrames clips crossfades = some total) {next : PlannedClip} {crossfade : Crossfade}
    (hends : crossfade.offsetFrames + crossfade.frames = total) :
    chainFrames (clips ++ [next]) (crossfades ++ [crossfade]) =
      some (total + next.streamFrames - crossfade.frames) := by
  cases clips with
  | nil => cases h
  | cons first clips => exact xfadeChain_append h hends

/-- A segment with its clip `item` at the end: what it lasts without what the next clip takes over,
the chain so far with the trail of the clip, and the first clip without a lead. -/
structure ChainSoFar (current : List PlannedClip) (crossfades : List Crossfade)
    (item : PlannedClip) : Prop where
  frames : (current.map (·.frames)).sum = item.startFrame - (current.headD item).startFrame
  chain : chainFrames (current ++ [item]) crossfades =
    some (item.endFrame - (current.headD item).startFrame + item.trail.frames)
  lead : (current.headD item).lead = {}

structure Chained (segment : RenderSegment) : Prop where
  chain : chainFrames segment.clips segment.crossfades = some segment.frames
  lead : (segment.clips.head segment.nonempty).lead = {}
  trail : (segment.clips.getLast segment.nonempty).trail = {}

section Segments

variable {profile : OutputProfile} {current : List PlannedClip} {crossfades : List Crossfade}
  {item next : PlannedClip}

theorem chainSoFar_nil (h : item.lead = {}) : ChainSoFar [] [] item where
  frames := by simp
  chain := by
    have hend : item.endFrame = item.startFrame + item.frames := rfl
    have hlead : item.lead.frames = 0 := by rw [h]; rfl
    simp only [List.nil_append, chainFrames, xfadeChain, List.headD_nil, PlannedClip.streamFrames]
    congr 1
    omega
  lead := h

theorem ChainSoFar.closed (h : ChainSoFar current crossfades item) (htrail : item.trail = {})
    (hnonempty : current ++ [item] ≠ []) : Chained ⟨current ++ [item], crossfades, hnonempty⟩ where
  chain := by
    have hend : item.endFrame = item.startFrame + item.frames := rfl
    have hframes : item.trail.frames = 0 := by rw [htrail]; rfl
    have hsum := h.frames
    rw [h.chain]
    congr 1
    simp only [RenderSegment.frames, List.map_append, List.sum_append, List.map_cons, List.map_nil,
      List.sum_cons, List.sum_nil]
    omega
  lead := by
    have hlead := h.lead
    cases current with
    | nil => exact hlead
    | cons first current => exact hlead
  trail := by
    dsimp only
    rwa [List.getLast_append_singleton]

theorem ChainSoFar.extend (h : ChainSoFar current crossfades item)
    (hnext : next.startFrame = item.endFrame) {effect : String} {window : ℤ × ℤ}
    (htrail : item.trail.frames = window.2) (hlead : next.lead.frames = window.1) :
    ChainSoFar (current ++ [item])
      (crossfades ++ [⟨effect, item.endFrame - window.1 - (current.headD item).startFrame,
        window.1 + window.2⟩]) next := by
  have hend : item.endFrame = item.startFrame + item.frames := rfl
  have hhead : (current ++ [item]).headD next = current.headD item := by
    cases current <;> rfl
  refine ⟨?_, ?_, ?_⟩
  · have hsum := h.frames
    rw [hhead]
    simp only [List.map_append, List.sum_append, List.map_cons, List.map_nil, List.sum_cons,
      List.sum_nil]
    omega
  · have hnextEnd : next.endFrame = next.startFrame + next.frames := rfl
    rw [hhead, chainFrames_append h.chain]
    · simp only [PlannedClip.streamFrames]
      congr 1
      omega
    · dsimp only
      omega
  · rw [hhead]
    exact h.lead

theorem chained_segmentsFrom {frame : ℤ} {rest : List PlannedClip}
    (hcontiguous : Contiguous frame (item :: rest))
    (hborrowed : Borrowed profile item.lead (item :: rest))
    (hsofar : ChainSoFar current crossfades item) :
    ∀ segment ∈ segmentsFrom profile current crossfades (item :: rest), Chained segment := by
  induction rest generalizing current crossfades item frame with
  | nil =>
      have hsegments : segmentsFrom profile current crossfades [item] =
          [⟨current ++ [item], crossfades, by simp⟩] := by
        unfold segmentsFrom
        split <;> rfl
      rw [hsegments, List.forall_mem_singleton]
      exact hsofar.closed hborrowed.2 _
  | cons next rest ih =>
      obtain ⟨-, -, hrest⟩ := hcontiguous
      obtain ⟨-, htrail, hnext⟩ := hborrowed
      have hlead : next.lead = leadOf profile item.clip next.clip := hnext.1
      rw [← hlead] at hnext
      cases hoverlap : overlap item.clip with
      | none =>
          have hsegments : segmentsFrom profile current crossfades (item :: next :: rest) =
              ⟨current ++ [item], crossfades, by simp⟩ ::
                segmentsFrom profile [] [] (next :: rest) := by
            rw [segmentsFrom, hoverlap]
          have htrailNone : item.trail = {} := by rw [htrail, trailOf, hoverlap]
          have hleadNone : next.lead = {} := by rw [hlead, leadOf, hoverlap]
          rw [hsegments, List.forall_mem_cons]
          exact ⟨hsofar.closed htrailNone _, ih hrest hnext (chainSoFar_nil hleadNone)⟩
      | some transition =>
          have htrailFrames : item.trail.frames = (windowFrames profile transition).2 := by
            rw [htrail, frames_trailOf, incomingFrames, hoverlap]
            rfl
          have hleadFrames : next.lead.frames = (windowFrames profile transition).1 := by
            rw [hlead, frames_leadOf, outgoingFrames, hoverlap]
            rfl
          rw [segmentsFrom, hoverlap]
          dsimp only
          rw [if_neg (List.cons_ne_nil next rest)]
          exact ih hrest hnext (hsofar.extend hrest.1 htrailFrames hleadFrames)

end Segments

/-- Every segment of every plan chains: each window ends with the stream accumulated before it, the
last stream is as long as the segment, and nothing is borrowed over its hard cuts. -/
theorem planRender_chained (profile : OutputProfile) (clips : List RenderClip) :
    ∀ segment ∈ (planRender profile clips).segments, Chained segment := by
  have hcontiguous := contiguous_congr (joinAll_sameFrames profile (layOut profile clips).1)
    (contiguous_layOutFrom profile)
  have hborrowed := borrowed_joinAll profile (plain_layOutFrom profile clips 0)
  change ∀ segment ∈ segmentsFrom profile [] [] (joinAll profile (layOut profile clips).1), _
  cases hjoined : joinAll profile (layOut profile clips).1 with
  | nil => exact fun segment h => absurd h List.not_mem_nil
  | cons first rest =>
      change Borrowed profile {} (joinAll profile (layOut profile clips).1) at hborrowed
      rw [hjoined] at hcontiguous hborrowed
      have hlead : first.lead = {} := hborrowed.1
      rw [← hlead] at hborrowed
      exact chained_segmentsFrom hcontiguous hborrowed (chainSoFar_nil hlead)

theorem planRender_chained_tight :
    ∃ segment ∈ (planRender finalCutProfile (renderClips tightClips tightMedia)).segments,
      segment.crossfades.length = 1 ∧ Chained segment := by
  have hhead : ((planRender finalCutProfile (renderClips tightClips tightMedia)).segments.head?.any
      fun segment => segment.crossfades.length = 1) = true := by
    decide +kernel
  obtain ⟨segment, hsome, hlength⟩ := (Option.any_eq_true _ _).mp hhead
  have hmem := List.mem_of_mem_head? hsome
  exact ⟨_, hmem, of_decide_eq_true hlength, planRender_chained _ _ _ hmem⟩

end ShortReel.SegmentStreams
