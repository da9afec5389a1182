import HorizonOs.Glass.Palette
import HorizonOs.Lib.Rectangles
import Mathlib.Data.UInt

/-!
# The surface

The model laid out as a flat scene of rectangles, texts and hit targets. Coordinates are `i32`
in the source and integers here, of which the casts to `i32` keep the low 32 bits.
-/

namespace HorizonOs.Glass

open HorizonOs.Lib.Rectangles
open HorizonOs.Lib.Text (encodeHex trimChars)
open HorizonOs.Weave (GrantId Resource)

set_option autoImplicit false

/-- `as i32`. -/
def asI32 (n : Nat) : Int := Int.bmod n (2 ^ 32)

/-! ## Scenes -/

structure Color where
  r : UInt8
  g : UInt8
  b : UInt8
  a : UInt8
  deriving DecidableEq

def Color.rgb (r g b : UInt8) : Color := ⟨r, g, b, 255⟩

def BG : Color := Color.rgb 0x10 0x12 0x16
def PANEL : Color := Color.rgb 0x17 0x1a 0x21
def RULE : Color := Color.rgb 0x2a 0x2f 0x38
def FG : Color := Color.rgb 0xc8 0xcc 0xd4
def TITLE : Color := Color.rgb 0xe9 0xec 0xf1
def DIM : Color := Color.rgb 0x6b 0x73 0x82
def LIVE : Color := Color.rgb 0x46 0xc0 0x5a
def SEVERED : Color := Color.rgb 0xe5 0x4b 0x4f
def BLOCKED : Color := Color.rgb 0xd8 0xa2 0x2a
def EXPIRED : Color := Color.rgb 0x7a 0x82 0x90
def NET : Color := Color.rgb 0x4a 0xb0 0xd0
def ACCENT : Color := Color.rgb 0x6c 0xb6 0xff
def BAR : Color := Color.rgb 0x35 0x52 0x6e
def BAR_HI : Color := Color.rgb 0x5a 0x8c 0xc0

/-- What the button of a severable channel is filled with. -/
def BUTTON : Color := Color.rgb 0x2a 0x1a 0x1c

def status_color : ChannelStatus → Color
  | .live => LIVE
  | .severed => SEVERED
  | .expired => EXPIRED
  | .blocked => BLOCKED

def ChannelStatus.label : ChannelStatus → String
  | .live => "live"
  | .severed => "severed"
  | .expired => "expired"
  | .blocked => "blocked"

/-- A filled rectangle or a run of text. -/
inductive Primitive where
  | rect (x y w h : Int) (color : Color)
  | text (x y scale : Int) (color : Color) (text : String)
  deriving DecidableEq

inductive Action where
  | sever (grant : GrantId)
  deriving DecidableEq

/-- A clickable region. -/
structure Hit where
  x : Int
  y : Int
  w : Int
  h : Int
  action : Action
  deriving DecidableEq

def Hit.area (hit : Hit) : Rect := ⟨hit.x, hit.y, hit.w, hit.h⟩

def Hit.contains (hit : Hit) (px py : Int) : Bool := hit.area.contains px py

structure Scene where
  width : Int
  height : Int
  bg : Color
  prims : List Primitive
  hits : List Hit
  deriving DecidableEq

/-- The action under a point; the topmost hit wins. -/
def Scene.action_at (scene : Scene) (x y : Int) : Option Action :=
  (scene.hits.reverse.find? fun hit => hit.contains x y).map Hit.action

/-! ## The builder -/

def GLYPH : Int := 8

def text_width (s : String) (scale : Int) : Int := asI32 s.toList.length * GLYPH * scale

structure Frame where
  width : Int
  height : Int
  scale : Int
  deriving DecidableEq

namespace Frame

/-! The measures that follow from the scale. -/

def cell (frame : Frame) : Int := GLYPH * frame.scale

def margin (frame : Frame) : Int := 2 * frame.cell

def line (frame : Frame) : Int := frame.cell + 4 * frame.scale

end Frame

structure Surface extends Frame where
  prims : List Primitive
  hits : List Hit

namespace Surface

def new (width height scale : Int) : Surface := ⟨⟨width, height, scale⟩, [], []⟩

def rect (s : Surface) (x y w h : Int) (color : Color) : Surface :=
  { s with prims := s.prims ++ [.rect x y w h color] }

/-- Draws a text, and tells the x just past it. -/
def text (s : Surface) (x y : Int) (color : Color) (text : String) : Surface × Int :=
  ({ s with prims := s.prims ++ [.text x y s.scale color text] }, x + text_width text s.scale)

def rule (s : Surface) (y : Int) : Surface :=
  s.rect s.margin y (s.width - 2 * s.margin) s.scale RULE

def hit (s : Surface) (hit : Hit) : Surface := { s with hits := s.hits ++ [hit] }

end Surface

def align (x0 x col : Int) (s : Surface) : Int := max (x0 + col * s.cell) (x + s.cell)

def saturatingSub (a b : UInt64) : UInt64 := if b ≤ a then a - b else 0

def ago (now t : UInt64) : String :=
  let d := saturatingSub now t
  if d = 0 then "now"
  else if d < 60 then s!"{d}s ago"
  else if d < 3600 then s!"{d / 60}m ago"
  else if d < 86400 then s!"{d / 3600}h ago"
  else s!"{d / 86400}d ago"

def span_label (span : UInt64) : String :=
  if span = 0 then "0s"
  else if span % 86400 = 0 then s!"{span / 86400}d"
  else if span % 3600 = 0 then s!"{span / 3600}h"
  else s!"{span}s"

/-- The first eight digits. -/
def short (hex : String) : String := String.ofList (hex.toList.take 8)

/-! ## Above the list -/

/-- The header's totals, each with the color of what it means. -/
def segments (t : Totals) : List (String × Color) :=
  [(s!"{t.principals} principals", FG), (s!"{t.live} live", LIVE), (s!"{t.network} network", NET),
    (s!"{t.blocked} blocked", BLOCKED), (s!"{t.severed} severed", SEVERED)]

def draw_segments (s : Surface) (x y : Int) : List (String × Color) → Surface
  | [] => s
  | (text, color) :: rest =>
      let (s, past) := s.text x y color text
      draw_segments s (past + s.cell * 2) y rest

def header (s : Surface) (model : Model) (y : Int) : Surface × Int :=
  let s := s.rect 0 0 s.width (y + 2 * s.line + s.line.tdiv 2) PANEL
  let (s, title_end) := s.text s.margin y TITLE "glass"
  let s := (s.text (title_end + s.cell) y DIM s!"{span_label model.window.span} window").1
  let asof := s!"as of {model.window.endUnix}"
  let s := (s.text (s.width - s.margin - text_width asof s.scale) y DIM asof).1
  let y := y + s.line
  (draw_segments s s.margin y (segments model.totals), y + s.line)

/-- The sum of a counter, a `u32`. -/
def sum (model : Model) (f : Bucket → UInt32) : UInt32 := (model.timeline.map f).sum

/-- `Bucket::total`, a `u32`. -/
def Bucket.all (b : Bucket) : UInt32 := b.grants + b.uses + b.denials + b.revokes

/-- The bars from the `i`-th bucket on, as far as the surface is wide. -/
def draw_bars (s : Surface) (bars_x baseline : Int) (max : UInt32) : Nat → List Bucket → Surface
  | _, [] => s
  | i, b :: rest =>
      let band := s.line * 2
      let bar_w := s.cell
      let gap := 2 * s.scale
      let bx := bars_x + asI32 i * (bar_w + gap)
      if bx + bar_w > s.width - s.margin then s
      else
        let h := if max = 0 ∨ b.all = 0 then 0
          else Max.max (((band - s.scale) * asI32 b.all.toNat).tdiv (asI32 max.toNat)) s.scale
        let s := s.rect bx (baseline - s.scale) bar_w s.scale RULE
        let s := if h > 0 then
            s.rect bx (baseline - h) bar_w h (if b.all = max then BAR_HI else BAR)
          else s
        draw_bars s bars_x baseline max (i + 1) rest

def timeline (s : Surface) (model : Model) (y : Int) : Surface × Int :=
  let (s, label_end) := s.text s.margin y DIM "timeline"
  let counts := s!"grants {sum model Bucket.grants}  uses {sum model Bucket.uses}" ++
    s!"  denials {sum model Bucket.denials}  revokes {sum model Bucket.revokes}"
  let s := (s.text (s.width - s.margin - text_width counts s.scale) y DIM counts).1
  let baseline := y + s.line * 2
  let max := (model.timeline.map Bucket.all).foldl (fun a b => if a ≤ b then b else a) 0
  (draw_bars s (label_end + s.cell * 2) baseline max 0 model.timeline, baseline)

/-! ## The list -/

/-- The usage counts behind the resource. -/
def usage_tail (c : Channel) : String :=
  let uses := plural c.uses.toNat "use" "uses"
  (if c.uses > 0 then s!"  {c.uses} {uses}" else "") ++
    (if c.denials > 0 then s!"  {c.denials} blocked" else "")

/-- The tab and the columns of a channel's row. -/
def channel_columns (s : Surface) (c : Channel) (y : Int) : Surface :=
  let col := status_color c.status
  let s := s.rect (s.margin - s.cell) y (s.scale * 2) s.cell col
  let x0 := s.margin
  let (s, x) := s.text x0 y col c.status.label
  let (s, x) := s.text (align x0 x 9 s) y DIM c.kind.label
  let (s, x) := s.text (align x0 x 13 s) y FG c.rights.display
  let x := align x0 x 18 s
  let res_color := if c.kind = .network then NET else FG
  let tail := usage_tail c
  let (s, res_end) := s.text x y res_color c.resource.display
  if tail = "" then s else (s.text (res_end + s.cell) y DIM tail).1

/-- The button of a severable channel, or the id of a grant that cannot be severed. -/
def kill_switch (s : Surface) (c : Channel) (y : Int) : Surface :=
  match c.grant with
  | none => s
  | some g =>
      if c.canSever then
        let label := "sever"
        let bw := text_width label s.scale + 2 * s.cell
        let bx := s.width - s.margin - bw
        let bh := s.cell + 2 * s.scale
        let s := s.rect bx (y - s.scale) bw bh BUTTON
        let s := (s.text (bx + s.cell) y SEVERED label).1
        s.hit ⟨bx, y - s.scale, bw, bh, .sever g⟩
      else
        let id := short (encodeHex g.bytes)
        (s.text (s.width - s.margin - text_width id s.scale) y DIM id).1

def text_rows (s : Surface) (x y : Int) : List String → Surface × Int
  | [] => (s, y)
  | text :: rest => text_rows (s.text x y DIM text).1 x (y + s.line) rest

/-- What was accessed under the channel, a few at most. -/
def accessed_texts (c : Channel) : List String :=
  (c.accessed.take 3).map Resource.display ++
    if c.accessed.length > 3 then [s!"+{c.accessed.length - 3} more"] else []

def channel (s : Surface) (c : Channel) (y : Int) : Surface × Int :=
  let s := kill_switch (channel_columns s c y) c y
  text_rows s (s.margin + 2 * s.cell) (y + s.line) (accessed_texts c)

def channels (s : Surface) (list_bottom y : Int) : List Channel → Surface × Int
  | [] => (s, y)
  | c :: rest =>
      if y + s.line > list_bottom then (s, y)
      else channels (channel s c y).1 list_bottom (channel s c y).2 rest

/-- A principal's name, with how long ago it was active. -/
def principal_name (s : Surface) (p : PrincipalView) (now : UInt64) (y : Int) : Surface :=
  let s := (s.text s.margin y TITLE p.principal).1
  match p.lastUnix with
  | none => s
  | some t => (s.text (s.width - s.margin - text_width (ago now t) s.scale) y DIM (ago now t)).1

def principal (s : Surface) (p : PrincipalView) (now : UInt64) (y list_bottom : Int) :
    Surface × Int :=
  channels (principal_name s p now y) list_bottom (y + s.line) p.channels

def principals (s : Surface) (now : UInt64) (list_bottom y : Int) : List PrincipalView → Surface
  | [] => s
  | p :: rest =>
      if y + 2 * s.line > list_bottom then
        (s.text s.margin y DIM s!"+{rest.length + 1} more").1
      else
        let (s, y) := principal s p now y list_bottom
        principals s now list_bottom (y + s.line.tdiv 2) rest

/-! ## The palette band -/

def PROPOSAL_MAX_STEPS : Nat := 6

/-- The rows that the band draws below the input row. -/
def band_below_rows (palette : Palette) : Int :=
  match palette.proposal with
  | none => 1
  | some p =>
      if p.failed.isSome then 1
      else
        let shown := min p.steps.length PROPOSAL_MAX_STEPS
        let rows := ((p.steps.take shown).map fun st => 1 + asI32 st.needs.length).sum
        (if p.steps.length > shown then rows + 1 else rows) + 1

def need_rows (s : Surface) (y : Int) : List ProposalNeed → Surface × Int
  | [] => (s, y)
  | n :: rest =>
      let mark := if n.held then "held" else "missing"
      let color := if n.held then DIM else BLOCKED
      let s := (s.text (s.margin + 2 * s.cell) y color s!"{n.resource}  {n.rights}  {mark}").1
      need_rows s (y + s.line) rest

/-- The head of the `i`-th step. -/
def step_head (i : Nat) (st : ProposalStep) : String :=
  match st.block with
  | some b => s!"{i + 1}. {st.tool}  ({st.effect})  {st.rationale} -- {b}"
  | none => s!"{i + 1}. {st.tool}  ({st.effect})  {st.rationale}"

def step_rows (s : Surface) (y : Int) : Nat → List ProposalStep → Surface × Int
  | _, [] => (s, y)
  | i, st :: rest =>
      let color := if st.block.isSome then BLOCKED else FG
      let s := (s.text s.margin y color (step_head i st)).1
      let (s, y) := need_rows s (y + s.line) st.needs
      step_rows s y (i + 1) rest

def proposal_rows (s : Surface) (p : Proposal) (y : Int) : Surface :=
  match p.failed with
  | some reason => (s.text s.margin y SEVERED s!"Aura: {reason}").1
  | none =>
      let shown := min p.steps.length PROPOSAL_MAX_STEPS
      let (s, y) := step_rows s y 0 (p.steps.take shown)
      let foot := if p.destructive then SEVERED else ACCENT
      if p.steps.length > shown then
        let s := (s.text s.margin y DIM s!"+{p.steps.length - shown} more steps").1
        (s.text s.margin (y + s.line) foot p.confirm_hint).1
      else (s.text s.margin y foot p.confirm_hint).1

/-- The feedback when there is no proposal. -/
def feedback (s : Surface) (palette : Palette) (y : Int) : Surface :=
  match palette.planning with
  | some intent => (s.text s.margin y ACCENT s!"planning: {intent} ...").1
  | none =>
      let msg := if trimChars palette.message.toList = [] then HINT_IDLE else palette.message
      (s.text s.margin y DIM msg).1

def palette_band (s : Surface) (palette : Palette) (y h : Int) : Surface :=
  let s := s.rect 0 y s.width h PANEL
  let s := s.rect 0 y s.width s.scale RULE
  let ty := y + 3 * s.scale
  let (s, prompt_end) := s.text s.margin ty ACCENT ">"
  let text_x := prompt_end + s.cell
  let s := if palette.input = "" then s else (s.text text_x ty FG palette.input).1
  let caret_x := text_x + asI32 palette.cursor * s.cell
  let s := s.rect caret_x (ty - s.scale) (s.scale * 2) (s.cell + 2 * s.scale) ACCENT
  match palette.proposal with
  | some p => proposal_rows s p (ty + s.line)
  | none => feedback s palette (ty + s.line)

def Frame.band_height (frame : Frame) (palette : Palette) : Int :=
  2 * (3 * frame.scale) + (1 + band_below_rows palette) * frame.line

def Frame.band_top (frame : Frame) (palette : Palette) : Int :=
  frame.height - frame.margin.tdiv 2 - frame.band_height palette

/-- Where the palette band is drawn. -/
def Frame.band (frame : Frame) (palette : Palette) : Rect :=
  ⟨0, frame.band_top palette, frame.width, frame.band_height palette⟩

/-! ## The layout -/

section Layout

variable (finalSigma : List Char → List Char → Bool)

/-- The filter, unless it is blank. -/
def Palette.query (palette : Palette) : Option String :=
  palette.filter.filter fun q => trimChars q.toList ≠ []

def shown_principals (model : Model) (palette : Palette) : List PrincipalView :=
  match palette.query with
  | some q => model.principals.filter fun p => principal_matches finalSigma p q
  | none => model.principals

/-- The principals, or what there is to say when none is shown. -/
def principal_list (s : Surface) (model : Model) (palette : Palette) (y : Int) : Surface :=
  let shown := shown_principals finalSigma model palette
  if shown = [] then
    let msg := match palette.query with
      | some q => s!"no match for '{q}'"
      | none => "no activity"
    (s.text s.margin y DIM msg).1
  else principals s model.window.endUnix (s.band_top palette - s.line) y shown

/-- The size of the surface and of its text, as `layout` takes them. -/
def frameOf (width height scale : UInt32) : Frame :=
  ⟨asI32 width.toNat, asI32 height.toNat, asI32 (max scale.toNat 1)⟩

def layout (model : Model) (palette : Palette) (width height scale : UInt32) : Scene :=
  let frame := frameOf width height scale
  let s := Surface.new frame.width frame.height frame.scale
  let (s, y) := header s model s.margin
  let (s, y) := timeline s model (y + s.line.tdiv 2)
  let y := y + s.line.tdiv 2
  let s := principal_list finalSigma (s.rule y) model palette (y + s.line)
  let s := palette_band s palette (s.band_top palette) (s.band_height palette)
  ⟨s.width, s.height, BG, s.prims, s.hits⟩

end Layout

end HorizonOs.Glass
