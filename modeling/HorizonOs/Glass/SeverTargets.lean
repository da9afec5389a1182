import HorizonOs.Glass.Surface

/-!
# The sever targets

What a drawing step leaves alone, and where the hit targets of the rows come to lie.
-/

namespace HorizonOs.Glass

open HorizonOs.Lib.Rectangles

set_option autoImplicit false

/-! ## Steps that only paint -/

/-- From one surface to the next only primitives were added. -/
structure Paints (s t : Surface) : Prop where
  frame : t.toFrame = s.toFrame
  prims : s.prims <+: t.prims
  hits : t.hits = s.hits

namespace Paints

variable {s t u : Surface}

theorem refl (s : Surface) : Paints s s := ⟨rfl, List.prefix_rfl, rfl⟩

theorem trans (first : Paints s t) (second : Paints t u) : Paints s u where
  frame := second.frame.trans first.frame
  prims := first.prims.trans second.prims
  hits := second.hits.trans first.hits

theorem rect (painted : Paints s t) (x y w h : Int) (color : Color) :
    Paints s (t.rect x y w h color) :=
  painted.trans ⟨rfl, List.prefix_append _ _, rfl⟩

theorem text (painted : Paints s t) (x y : Int) (color : Color) (text : String) :
    Paints s (t.text x y color text).1 :=
  painted.trans ⟨rfl, List.prefix_append _ _, rfl⟩

theorem branch {c : Prop} [Decidable c] (first : Paints s t) (second : Paints s u) :
    Paints s (if c then t else u) := by
  split
  · exact first
  · exact second

end Paints

theorem segments_paint (segments : List (String × Color)) (s : Surface) (x y : Int) :
    Paints s (draw_segments s x y segments) := by
  induction segments generalizing s x with
  | nil => exact Paints.refl s
  | cons segment rest ih => exact ((Paints.refl s).text x y segment.2 segment.1).trans (ih _ _)

theorem header_paints (s : Surface) (model : Model) (y : Int) :
    Paints s (header s model y).1 := by
  rw [header]
  dsimp only
  refine Paints.trans ?_ (segments_paint _ _ _ _)
  exact ((((Paints.refl s).rect _ _ _ _ _).text _ _ _ _).text _ _ _ _).text _ _ _ _

theorem bars_paint (buckets : List Bucket) (s : Surface) (bars_x baseline : Int) (max : UInt32)
    (i : Nat) : Paints s (draw_bars s bars_x baseline max i buckets) := by
  induction buckets generalizing s i with
  | nil => exact Paints.refl s
  | cons b rest ih =>
      rw [draw_bars]
      dsimp only
      split
      · exact Paints.refl s
      · have tick := (Paints.refl s).rect (bars_x + asI32 i * (s.cell + 2 * s.scale))
          (baseline - s.scale) s.cell s.scale RULE
        exact Paints.trans ((tick.rect _ _ _ _ _).branch tick) (ih _ _)

theorem timeline_paints (s : Surface) (model : Model) (y : Int) :
    Paints s (timeline s model y).1 := by
  rw [timeline]
  dsimp only
  refine Paints.trans ?_ (bars_paint _ _ _ _ _ _)
  exact ((Paints.refl s).text _ _ _ _).text _ _ _ _

theorem columns_paint (s : Surface) (c : Channel) (y : Int) :
    Paints s (channel_columns s c y) := by
  rw [channel_columns]
  dsimp only
  split
  · exact (((((Paints.refl s).rect _ _ _ _ _).text _ _ _ _).text _ _ _ _).text _ _ _ _).text _ _ _ _
  · refine Paints.text ?_ _ _ _ _
    exact (((((Paints.refl s).rect _ _ _ _ _).text _ _ _ _).text _ _ _ _).text _ _ _ _).text _ _ _ _

theorem text_rows_paint (texts : List String) (s : Surface) (x y : Int) :
    Paints s (text_rows s x y texts).1 := by
  induction texts generalizing s y with
  | nil => exact Paints.refl s
  | cons text rest ih => exact ((Paints.refl s).text x y DIM text).trans (ih _ _)

theorem name_paints (s : Surface) (p : PrincipalView) (now : UInt64) (y : Int) :
    Paints s (principal_name s p now y) := by
  have named := (Paints.refl s).text s.margin y TITLE p.principal
  rw [principal_name]
  split
  · exact named
  · exact named.text _ _ _ _

theorem needs_paint (needs : List ProposalNeed) (s : Surface) (y : Int) :
    Paints s (need_rows s y needs).1 := by
  induction needs generalizing s y with
  | nil => exact Paints.refl s
  | cons n rest ih =>
      rw [need_rows]
      exact Paints.trans ((Paints.refl s).text _ _ _ _) (ih _ _)

theorem steps_paint (steps : List ProposalStep) (s : Surface) (y : Int) (i : Nat) :
    Paints s (step_rows s y i steps).1 := by
  induction steps generalizing s y i with
  | nil => exact Paints.refl s
  | cons st rest ih =>
      rw [step_rows]
      dsimp only
      refine Paints.trans ?_ (ih _ _ _)
      exact Paints.trans ((Paints.refl s).text _ _ _ _) (needs_paint st.needs _ _)

theorem proposal_paints (s : Surface) (p : Proposal) (y : Int) :
    Paints s (proposal_rows s p y) := by
  rw [proposal_rows]
  split
  · exact (Paints.refl s).text _ _ _ _
  · have steps := steps_paint (p.steps.take (min p.steps.length PROPOSAL_MAX_STEPS)) s y 0
    dsimp only
    split
    · exact (steps.text _ _ _ _).text _ _ _ _
    · exact steps.text _ _ _ _

theorem feedback_paints (s : Surface) (palette : Palette) (y : Int) :
    Paints s (feedback s palette y) := by
  rw [feedback]
  split
  · exact (Paints.refl s).text _ _ _ _
  · exact (Paints.refl s).text _ _ _ _

/-- The band is drawn behind what is drawn in it. -/
theorem band_paints (s : Surface) (palette : Palette) (y h : Int) :
    Paints (s.rect 0 y s.width h PANEL) (palette_band s palette y h) := by
  have prompt := ((Paints.refl (s.rect 0 y s.width h PANEL)).rect 0 y s.width s.scale RULE).text
    s.margin (y + 3 * s.scale) ACCENT ">"
  rw [palette_band]
  dsimp only
  split
  · refine Paints.trans ?_ (proposal_paints _ _ _)
    exact (prompt.branch (prompt.text _ _ _ _)).rect _ _ _ _ _
  · refine Paints.trans ?_ (feedback_paints _ _ _)
    exact (prompt.branch (prompt.text _ _ _ _)).rect _ _ _ _ _

/-! ## Rows with a kill switch -/

/-- A row of the channel is drawn at this height. -/
structure RowAt (frame : Frame) (prims : List Primitive) (c : Channel) (y : Int) : Prop where
  tab : .rect (frame.margin - frame.cell) y (frame.scale * 2) frame.cell (status_color c.status) ∈
    prims
  status : .text frame.margin y frame.scale (status_color c.status) c.status.label ∈ prims
  kind : ∃ x, .text x y frame.scale DIM c.kind.label ∈ prims
  rights : ∃ x, .text x y frame.scale FG c.rights.display ∈ prims
  resource : ∃ x color, .text x y frame.scale color c.resource.display ∈ prims

/-- The hit is the button drawn in a row of a severable channel, and severs its grant. -/
structure Switches (frame : Frame) (prims : List Primitive) (c : Channel) (hit : Hit) : Prop where
  severable : c.canSever = true
  severs : ∃ g, c.grant = some g ∧ hit.action = .sever g
  row : RowAt frame prims c (hit.y + frame.scale)
  button : .rect hit.x hit.y hit.w hit.h BUTTON ∈ prims
  label : .text (hit.x + frame.cell) (hit.y + frame.scale) frame.scale SEVERED "sever" ∈ prims
  right : hit.x + hit.w = frame.width - frame.margin
  height : hit.h = frame.cell + 2 * frame.scale

theorem RowAt.more {frame : Frame} {prims later : List Primitive} {c : Channel} {y : Int}
    (drawn : RowAt frame prims c y) (more : prims <+: later) : RowAt frame later c y where
  tab := more.subset drawn.tab
  status := more.subset drawn.status
  kind := drawn.kind.imp fun _ member => more.subset member
  rights := drawn.rights.imp fun _ member => more.subset member
  resource := drawn.resource.imp fun _ colored => colored.imp fun _ member => more.subset member

theorem Switches.more {frame : Frame} {prims later : List Primitive} {c : Channel} {hit : Hit}
    (switches : Switches frame prims c hit) (more : prims <+: later) :
    Switches frame later c hit where
  severable := switches.severable
  severs := switches.severs
  row := switches.row.more more
  button := more.subset switches.button
  label := more.subset switches.label
  right := switches.right
  height := switches.height

/-- What a row's columns add, whatever trails the resource. -/
theorem columns_prims (s : Surface) (c : Channel) (y : Int) : ∃ x₁ x₂ x₃ color tail,
    (channel_columns s c y).prims = s.prims ++
      [.rect (s.margin - s.cell) y (s.scale * 2) s.cell (status_color c.status),
        .text s.margin y s.scale (status_color c.status) c.status.label,
        .text x₁ y s.scale DIM c.kind.label, .text x₂ y s.scale FG c.rights.display,
        .text x₃ y s.scale color c.resource.display] ++ tail := by
  rw [channel_columns]
  dsimp only
  split
  · exact ⟨_, _, _, _, [], by simp only [Surface.text, Surface.rect, List.append_assoc]; rfl⟩
  · exact ⟨_, _, _, _, [_], by simp only [Surface.text, Surface.rect, List.append_assoc]; rfl⟩

theorem columns_drawn (s : Surface) (c : Channel) (y : Int) :
    RowAt s.toFrame (channel_columns s c y).prims c y := by
  obtain ⟨x₁, x₂, x₃, color, tail, prims⟩ := columns_prims s c y
  have drawn : ∀ primitive ∈ [Primitive.rect (s.margin - s.cell) y (s.scale * 2) s.cell
      (status_color c.status), .text s.margin y s.scale (status_color c.status) c.status.label,
      .text x₁ y s.scale DIM c.kind.label, .text x₂ y s.scale FG c.rights.display,
      .text x₃ y s.scale color c.resource.display],
      primitive ∈ (channel_columns s c y).prims := by
    intro primitive member
    rw [prims]
    exact List.mem_append_left _ (List.mem_append_right _ member)
  simp only [List.forall_mem_cons] at drawn
  obtain ⟨tab, status, kind, rights, resource, -⟩ := drawn
  exact ⟨tab, status, ⟨x₁, kind⟩, ⟨x₂, rights⟩, ⟨x₃, color, resource⟩⟩

/-- A kill switch adds at most one hit, the button of this row. -/
theorem switch_cases (s : Surface) (c : Channel) (y : Int)
    (row : RowAt s.toFrame s.prims c y) : Paints s (kill_switch s c y) ∨
      ∃ hit, (kill_switch s c y).toFrame = s.toFrame ∧ s.prims <+: (kill_switch s c y).prims ∧
        (kill_switch s c y).hits = s.hits ++ [hit] ∧ hit.y = y - s.scale ∧
        Switches s.toFrame (kill_switch s c y).prims c hit := by
  rw [kill_switch]
  split
  case h_1 => exact .inl (Paints.refl s)
  case h_2 g granted =>
    split
    case isFalse => exact .inl ((Paints.refl s).text _ _ _ _)
    case isTrue severable =>
      dsimp only
      generalize text_width "sever" s.scale + 2 * s.cell = bw
      have painted := ((Paints.refl s).rect (s.width - s.margin - bw) (y - s.scale) bw
        (s.cell + 2 * s.scale) BUTTON).text (s.width - s.margin - bw + s.cell) y SEVERED "sever"
      refine .inr ⟨_, painted.frame, painted.prims, rfl, rfl, ?_⟩
      have at_row : y - s.scale + s.scale = y := Int.sub_add_cancel y s.scale
      refine ⟨severable, ⟨g, granted, rfl⟩, ?_, ?_, ?_, Int.sub_add_cancel _ _, rfl⟩
      · exact at_row.symm ▸ row.more painted.prims
      · exact List.mem_append_left _ (List.mem_append_right _ (List.mem_singleton_self _))
      · change Primitive.text _ (y - s.scale + s.scale) s.scale _ _ ∈ _
        rw [at_row]
        exact List.mem_append_right _ (List.mem_singleton_self _)

/-! ## The list -/

/-- From one surface to the next rows of these channels were drawn, from `y` to `y'`: each new
hit is the kill switch of one, and they follow one another above the bottom. -/
structure Lists (shown : Channel → Prop) (bottom : Int) (s t : Surface) (y y' : Int) : Prop where
  frame : t.toFrame = s.toFrame
  prims : s.prims <+: t.prims
  down : 0 < s.scale → y ≤ y'
  hits : ∃ added, t.hits = s.hits ++ added ∧
    (∀ hit ∈ added, ∃ c, shown c ∧ Switches t.toFrame t.prims c hit) ∧
    (0 < s.scale → Stacked Hit.area added (y - s.scale) (y' - s.scale) ∧
      ∀ hit ∈ added, hit.y + hit.h ≤ bottom)

section Lists

variable {shown : Channel → Prop} {bottom : Int} {s t u : Surface} {y y' y'' : Int}

theorem Paints.lists (painted : Paints s t) (down : 0 < s.scale → y ≤ y') :
    Lists shown bottom s t y y' where
  frame := painted.frame
  prims := painted.prims
  down := down
  hits := ⟨[], by rw [painted.hits, List.append_nil],
    fun _ member => absurd member List.not_mem_nil, fun _ => ⟨stacked_nil Hit.area _ _,
      fun _ member => absurd member List.not_mem_nil⟩⟩

theorem Lists.trans (first : Lists shown bottom s t y y') (second : Lists shown bottom t u y' y'') :
    Lists shown bottom s u y y'' where
  frame := second.frame.trans first.frame
  prims := first.prims.trans second.prims
  down positive := by
    have scale : t.scale = s.scale := congrArg Frame.scale first.frame
    exact Int.le_trans (first.down positive) (second.down (scale ▸ positive))
  hits := by
    have scale : t.scale = s.scale := congrArg Frame.scale first.frame
    obtain ⟨before, before_hits, before_switch, before_stacked⟩ := first.hits
    obtain ⟨after, after_hits, after_switch, after_stacked⟩ := second.hits
    refine ⟨before ++ after, by rw [after_hits, before_hits, List.append_assoc], ?_, ?_⟩
    · intro hit member
      rcases List.mem_append.mp member with early | late
      · obtain ⟨c, c_shown, switches⟩ := before_switch hit early
        exact ⟨c, c_shown, second.frame ▸ switches.more second.prims⟩
      · exact after_switch hit late
    · intro positive
      obtain ⟨upper, upper_above⟩ := before_stacked positive
      obtain ⟨lower, lower_above⟩ := after_stacked (scale ▸ positive)
      have to_middle := first.down positive
      have to_end := second.down (scale ▸ positive)
      rw [scale] at lower
      refine ⟨upper.append lower (by omega) (by omega), ?_⟩
      intro hit member
      exact (List.mem_append.mp member).elim (upper_above hit) (lower_above hit)

theorem line_down (frame : Frame) (y : Int) (positive : 0 < frame.scale) : y ≤ y + frame.line := by
  rw [Frame.line, Frame.cell, GLYPH]
  omega

theorem text_rows_down (texts : List String) (s : Surface) (x y : Int) (positive : 0 < s.scale) :
    y ≤ (text_rows s x y texts).2 := by
  induction texts generalizing s y with
  | nil => exact Int.le_refl y
  | cons text rest ih =>
      exact Int.le_trans (line_down s.toFrame y positive) (ih (s.text x y DIM text).1 _ positive)

/-- The row itself, with its kill switch. -/
theorem row_lists (s : Surface) {c : Channel} {y : Int} (is_shown : shown c)
    (room : y + s.line ≤ bottom) :
    Lists shown bottom s (kill_switch (channel_columns s c y) c y) y (y + s.line) := by
  have columns := columns_paint s c y
  have drawn : RowAt (channel_columns s c y).toFrame (channel_columns s c y).prims c y :=
    columns.frame.symm ▸ columns_drawn s c y
  rcases switch_cases _ c y drawn with painted | ⟨hit, frame, prims, hits, place, switches⟩
  · exact (columns.trans painted).lists (line_down s.toFrame y)
  · have scale : (channel_columns s c y).scale = s.scale := congrArg Frame.scale columns.frame
    refine ⟨frame.trans columns.frame, columns.prims.trans prims, line_down s.toFrame y, [hit],
      by rw [hits, columns.hits], ?_, ?_⟩
    · intro h member
      rw [List.mem_singleton.mp member]
      exact ⟨c, is_shown, frame.symm ▸ switches⟩
    · intro positive
      have height := switches.height
      rw [columns.frame, Frame.cell, GLYPH] at height
      rw [Frame.line, Frame.cell, GLYPH] at room
      rw [scale] at place
      refine ⟨stacked_one Hit.area (Int.le_of_eq place.symm) ?_, ?_⟩
      · change hit.y + hit.h ≤ y + s.line - s.scale
        rw [Frame.line, Frame.cell, GLYPH]
        omega
      · intro h member
        rw [List.mem_singleton.mp member]
        omega

theorem channel_lists (s : Surface) {c : Channel} {y : Int} (is_shown : shown c)
    (room : y + s.line ≤ bottom) :
    Lists shown bottom s (channel s c y).1 y (channel s c y).2 := by
  have row := row_lists s is_shown room
  have frame := row.frame
  refine row.trans ((text_rows_paint (accessed_texts c) _ _ _).lists fun positive => ?_)
  rw [channel, frame]
  exact text_rows_down _ _ _ _ positive

theorem channels_list (rows : List Channel) (s : Surface) (y : Int)
    (all_shown : ∀ c ∈ rows, shown c) :
    Lists shown bottom s (channels s bottom y rows).1 y (channels s bottom y rows).2 := by
  induction rows generalizing s y with
  | nil => exact (Paints.refl s).lists fun _ => Int.le_refl y
  | cons c rest ih =>
      rw [channels]
      split
      · exact (Paints.refl s).lists fun _ => Int.le_refl y
      · exact (channel_lists s (all_shown c List.mem_cons_self) (by omega)).trans
          (ih _ _ fun c member => all_shown c (List.mem_cons_of_mem _ member))

theorem half_line_down (frame : Frame) (y : Int) (positive : 0 < frame.scale) :
    y ≤ y + frame.line.tdiv 2 := by
  have line : 0 ≤ frame.line := by
    rw [Frame.line, Frame.cell, GLYPH]
    omega
  exact Int.le_add_of_nonneg_right (Int.tdiv_nonneg line (by decide))

theorem principals_list (views : List PrincipalView) (s : Surface) (now : UInt64) (y : Int)
    (all_shown : ∀ view ∈ views, ∀ c ∈ view.channels, shown c) :
    ∃ y', Lists shown bottom s (principals s now bottom y views) y y' := by
  induction views generalizing s y with
  | nil => exact ⟨y, (Paints.refl s).lists fun _ => Int.le_refl y⟩
  | cons p rest ih =>
      rw [principals]
      split
      · exact ⟨y, ((Paints.refl s).text _ _ _ _).lists fun _ => Int.le_refl y⟩
      · have name : Lists shown bottom s (principal_name s p now y) y (y + s.line) :=
          (name_paints s p now y).lists (line_down s.toFrame y)
        have rows := name.trans (channels_list p.channels (principal_name s p now y) (y + s.line)
          (all_shown p List.mem_cons_self))
        obtain ⟨y', others⟩ := ih (principal s p now y bottom).1
          ((principal s p now y bottom).2 + (principal s p now y bottom).1.line.tdiv 2)
          fun view member => all_shown view (List.mem_cons_of_mem _ member)
        have gap : Lists shown bottom _ _ _ _ := (Paints.refl (principal s p now y bottom).1).lists
          (half_line_down (principal s p now y bottom).1.toFrame (principal s p now y bottom).2)
        exact ⟨y', (rows.trans gap).trans others⟩

end Lists

/-! ## The whole surface -/

/-- The hits of a scene are the kill switches of rows that are drawn there, apart from one another
and from the band, and a click in one is its action. -/
structure SeverTargets (shown : List PrincipalView) (frame : Frame) (band : Rect) (scene : Scene) :
    Prop where
  apart : scene.hits.Pairwise fun a b => a.area.Apart b.area
  drawn : ∀ hit ∈ scene.hits, ∃ view ∈ shown, ∃ c ∈ view.channels,
    Switches frame scene.prims c hit
  banded : .rect band.x band.y band.w band.h PANEL ∈ scene.prims
  off_band : ∀ hit ∈ scene.hits, hit.area.Apart band
  found : ∀ hit ∈ scene.hits, ∀ px py, hit.contains px py = true →
    scene.action_at px py = some hit.action

/-- What is listed above a band, with the band drawn below, has true sever targets. -/
theorem listed_targets {shown : List PrincipalView} {s t u : Surface} {y y' : Int} {palette : Palette}
    (blank : s.hits = [])
    (listed : Lists (fun c => ∃ view ∈ shown, c ∈ view.channels)
      (s.band_top palette - s.line) s t y y')
    (drawn : u = palette_band t palette (t.band_top palette) (t.band_height palette)) :
    SeverTargets shown s.toFrame (s.band palette) ⟨u.width, u.height, BG, u.prims, u.hits⟩ := by
  obtain ⟨added, listed_hits, switches, stacked⟩ := listed.hits
  rw [blank, List.nil_append] at listed_hits
  rw [listed.frame] at drawn switches
  have painted := band_paints t palette (s.band_top palette) (s.band_height palette)
  rw [← drawn] at painted
  have hits : u.hits = added := painted.hits.trans listed_hits
  have flat : ¬ 0 < s.scale → ∀ hit ∈ added, hit.h ≤ 0 := by
    intro no_scale hit member
    obtain ⟨c, -, switch⟩ := switches hit member
    have height := switch.height
    rw [Frame.cell, GLYPH] at height
    omega
  have apart : added.Pairwise fun a b => a.area.Apart b.area := by
    by_cases positive : 0 < s.scale
    · exact (stacked positive).1.apart
    · exact List.pairwise_of_forall_mem_list fun a member _ _ =>
        apart_of_flat (flat positive a member)
  constructor
  case apart => exact hits ▸ apart
  case drawn =>
    intro hit member
    obtain ⟨c, ⟨view, is_shown, in_view⟩, switch⟩ := switches hit (hits ▸ member)
    exact ⟨view, is_shown, c, in_view, switch.more ((List.prefix_append _ _).trans painted.prims)⟩
  case banded =>
    refine painted.prims.subset (List.mem_append_right _ ?_)
    rw [show t.width = s.width from congrArg Frame.width listed.frame]
    exact List.mem_singleton_self _
  case off_band =>
    intro hit member
    by_cases positive : 0 < s.scale
    · have above := (stacked positive).2 hit (hits ▸ member)
      have line := line_down s.toFrame 0 positive
      exact apart_of_le (by change hit.y + hit.h ≤ s.band_top palette; omega)
    · exact apart_of_flat (flat positive hit (hits ▸ member))
  case found =>
    intro hit member px py inside
    have found := topmost_of_apart apart (hits ▸ member) inside
    change (topmost u.hits px py).map Hit.action = some hit.action
    rw [hits, found, Option.map_some]

theorem list_lists (finalSigma : List Char → List Char → Bool) (s : Surface) (model : Model)
    (palette : Palette) (y : Int) : ∃ y',
      Lists (fun c => ∃ view ∈ shown_principals finalSigma model palette, c ∈ view.channels)
        (s.band_top palette - s.line) s (principal_list finalSigma s model palette y) y y' := by
  rw [principal_list]
  dsimp only
  split
  · exact ⟨y, ((Paints.refl s).text _ _ _ _).lists fun _ => Int.le_refl y⟩
  · exact principals_list _ s _ y fun view member c in_view => ⟨view, member, in_view⟩

/-- Whatever is shown on whatever surface, the sever targets do not lie. -/
theorem layout_targets (finalSigma : List Char → List Char → Bool) (model : Model)
    (palette : Palette) (width height scale : UInt32) :
    SeverTargets (shown_principals finalSigma model palette) (frameOf width height scale)
      ((frameOf width height scale).band palette)
      (layout finalSigma model palette width height scale) := by
  rw [layout]
  generalize frameOf width height scale = frame
  let s := Surface.new frame.width frame.height frame.scale
  let headed := header s model s.margin
  let timed := timeline headed.1 model (headed.2 + headed.1.line.tdiv 2)
  let y := timed.2 + timed.1.line.tdiv 2
  have above : Paints s (timed.1.rule y) :=
    ((header_paints s model s.margin).trans (timeline_paints headed.1 model _)).rect _ _ _ _ _
  obtain ⟨y', listed⟩ := list_lists finalSigma (timed.1.rule y) model palette (y + timed.1.line)
  have targets := listed_targets above.hits listed rfl
  rw [above.frame] at targets
  exact targets

/-- A live channel that can be severed. -/
def sampleChannel : Channel :=
  ⟨"aura", .device "mic", .device, HorizonOs.Weave.Rights.READ,
    some (.ofBytes 16 (List.replicate 16 7)), .live, 0, 0, none, none, [], none⟩

example : (layout (fun _ _ => false)
    ⟨⟨0, 100⟩, [⟨"aura", [sampleChannel, sampleChannel], 2, 0, none⟩], [], ⟨1, 2, 0, 0, 0⟩⟩
    Palette.new 1200 800 2).hits.map Hit.area = [⟨1056, 198, 112, 20⟩, ⟨1056, 222, 112, 20⟩] := by
  decide

end HorizonOs.Glass
