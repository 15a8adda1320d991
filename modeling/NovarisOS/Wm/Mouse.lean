/-
NovarisOS.Wm.Mouse — what a mouse event does to the windows, as wm.c has it,
and the manager under its calls and events.

`deliver` and the handler of the system menu are the last thing on every path
of `wm_handle_mouse` that comes to one. What an application does in its
callback is therefore a list of calls made right after the event (`reaction`);
what is delivered to whom is part of the event's outcome.
-/
import NovarisOS.Wm.Windows
import NovarisOS.Lib.Machine

namespace NovarisOS.Wm

abbrev MOUSE_BUTTON_LEFT : UInt8 := 1
abbrev MOUSE_BUTTON_RIGHT : UInt8 := 2
abbrev RESIZE_BORDER : Int := 5
abbrev RESIZE_CORNER : Int := 14
abbrev SNAP_EDGE : Int := 6
abbrev DRAG_UNSNAP : Int := 8
abbrev WM_CAPTION_BTN_W : Int := 46
abbrev ICON_X : Int := 10
abbrev ICON_SIZE : Int := 16

/-- `mouse_event_t`. -/
structure MouseEvent where
  x : Int
  y : Int
  wheel : Int := 0
  buttons : UInt8 := 0
  pressed : UInt8 := 0
  released : UInt8 := 0

/-- `mask & button`. -/
def has (mask button : UInt8) : Bool := mask &&& button != 0

/-- `HIT_*`. -/
inductive Hit
  | none | client | caption | icon
  | btn (button : Button)
  | edge (edge : Edge)
  deriving DecidableEq

/-- `WM_MOUSE_*`. -/
inductive MouseKind
  | move | down | up | drag | wheel | double | rightDown
  deriving DecidableEq

/-- What an event gives to an application, or to the shell. -/
inductive Delivered
  | mouse (win : Nat) (x y : Int) (kind : MouseKind) (buttons : UInt8) (wheel : Int)
  | sysmenu (win : Nat) (x y : Int)

/-- The windows after an event, what it delivered, and whether it was consumed. -/
structure Outcome where
  wm : Manager
  delivered : Option Delivered
  consumed : Bool

/-! ## Hit testing -/

def window_at (x y : Int) (s : Manager) : Option Nat :=
  s.zorder.reverse.find? fun win =>
    let v := s.windows win
    s.visible win && decide (x ≥ v.x ∧ x < v.x + v.w ∧ y ≥ v.y ∧ y < v.y + v.h)

def caption_button_rect (v : Window) (index : Int) : Rect :=
  ⟨v.w - (3 - index) * WM_CAPTION_BTN_W, 0, WM_CAPTION_BTN_W, WM_TITLEBAR_H⟩

def Rect.contains (r : Rect) (x y : Int) : Bool := decide (x ≥ r.x ∧ x < r.x + r.w ∧ y ≥ r.y ∧ y < r.y + r.h)

/-- The edge or corner under a point of a resizable window. -/
def edge_test (v : Window) (wx wy : Int) : Option Edge :=
  let left := wx < RESIZE_BORDER
  let right := wx ≥ v.w - RESIZE_BORDER
  let top := wy < RESIZE_BORDER
  let bottom := wy ≥ v.h - RESIZE_BORDER
  let cleft := wx < RESIZE_CORNER
  let cright := wx ≥ v.w - RESIZE_CORNER
  let ctop := wy < RESIZE_CORNER
  let cbottom := wy ≥ v.h - RESIZE_CORNER
  if (left ∨ top) ∧ cleft ∧ ctop then some .tl
  else if (right ∨ top) ∧ cright ∧ ctop then some .tr
  else if (left ∨ bottom) ∧ cleft ∧ cbottom then some .bl
  else if (right ∨ bottom) ∧ cright ∧ cbottom then some .br
  else if left then some .l
  else if right then some .r
  else if top then some .t
  else if bottom then some .b
  else none

/-- What of a window is under a point that no edge has. -/
def caption_test (v : Window) (wx wy : Int) : Hit :=
  if wy < WM_TITLEBAR_H then
    if (caption_button_rect v 0).contains wx wy then .btn .min
    else if (caption_button_rect v 1).contains wx wy then .btn .max
    else if (caption_button_rect v 2).contains wx wy then .btn .close
    else if wx < ICON_X + ICON_SIZE + 2 then .icon
    else .caption
  else .client

def hit_test (v : Window) (wx wy : Int) : Hit :=
  if v.resizable && !v.maximized then
    match edge_test v wx wy with
    | some e => .edge e
    | none => caption_test v wx wy
  else caption_test v wx wy

/-- The window under a point, and what of it. -/
def hit_at (x y : Int) (s : Manager) : Option (Nat × Hit) :=
  (window_at x y s).map fun win => (win, hit_test (s.windows win) (x - (s.windows win).x) (y - (s.windows win).y))

/-- The caption button of a hit. -/
def Hit.button : Hit → Option Button
  | .btn b => some b
  | _ => .none

/-! ## Dragging -/

def snap_target_for (x y : Int) (s : Manager) : Snap :=
  let left := x ≤ s.work_x + SNAP_EDGE
  let right := x ≥ s.work_x + s.work_w - 1 - SNAP_EDGE
  let top := y ≤ s.work_y + SNAP_EDGE
  if left ∨ right then
    if y < s.work_y + s.work_h.tdiv 4 then if left then .tl else .tr
    else if y > s.work_y + (s.work_h * 3).tdiv 4 then if left then .bl else .br
    else if left then .left else .right
  else if top then .maximize
  else .none

def drag_resize_to (win : Nat) (x y : Int) (surface : Bool) (s : Manager) : Manager :=
  let v := s.windows win
  let e := s.drag_edge
  let left := e = .l ∨ e = .tl ∨ e = .bl
  let right := e = .r ∨ e = .tr ∨ e = .br
  let top := e = .t ∨ e = .tl ∨ e = .tr
  let bottom := e = .b ∨ e = .bl ∨ e = .br
  let (nx, nw) :=
    if left then
      let nx := x - s.drag_grab_x
      let nw := s.drag_anchor_r - nx
      if nw < v.min_w then (s.drag_anchor_r - v.min_w, v.min_w) else (nx, nw)
    else if right then (v.x, x - v.x + s.drag_grab_x)
    else (v.x, v.w)
  let (ny, nh) :=
    if top then
      let ny := y - s.drag_grab_y
      let nh := s.drag_anchor_b - ny
      let (ny, nh) := if nh < v.min_h then (s.drag_anchor_b - v.min_h, v.min_h) else (ny, nh)
      if ny < s.work_y then (s.work_y, s.drag_anchor_b - s.work_y) else (ny, nh)
    else if bottom then (v.y, y - v.y + s.drag_grab_y)
    else (v.y, v.h)
  set_frame win nx ny nw nh surface s

def unsnap_for_drag (win : Nat) (x : Int) (surface : Bool) (s : Manager) : Manager :=
  let old_w := (s.windows win).w
  let s := s.set win fun v => { v with maximized := false, snapped := .none }
  let v := s.windows win
  let s := set_frame win v.x v.y v.restore_w v.restore_h surface s
  let v := s.windows win
  let along := if old_w > 1 then (s.drag_grab_x * v.w).tdiv old_w else s.drag_grab_x
  let along := if along > v.w - 40 then v.w - 40 else along
  let along := if along < 20 then 20 else along
  wm_move win (x - along) v.y { s with drag_grab_x := along }

/-- A drag that has gone far enough moves its window, out of a snap if need be. -/
def drag_threshold (win : Nat) (x y : Int) (surface : Bool) (s : Manager) : Manager :=
  let dx := x - s.drag_origin_x
  let dy := y - s.drag_origin_y
  if !s.drag_moved && dx * dx + dy * dy ≥ DRAG_UNSNAP * DRAG_UNSNAP then
    let s := { s with drag_moved := true }
    if (s.windows win).maximized ∨ (s.windows win).snapped ≠ .none then unsnap_for_drag win x surface s else s
  else s

/-- The drag of `win` goes on to a new place. -/
def drag_to (win : Nat) (x y : Int) (surface : Bool) (s : Manager) : Manager :=
  if s.drag_mode = .move then
    let s := drag_threshold win x y surface s
    if s.drag_moved then
      let s := wm_move win (x - s.drag_grab_x) (y - s.drag_grab_y) s
      { s with pending_snap := if (s.windows win).resizable then snap_target_for x y s else .none }
    else s
  else drag_resize_to win x y surface s

/-- The drag of `win` ends. -/
def drag_drop (win : Nat) (surface : Bool) (s : Manager) : Manager :=
  let target := s.pending_snap
  let s := { s with drag_mode := .none, drag_win := none, pending_snap := .none }
  if target ≠ .none then wm_snap (some win) target surface s else s

/-! ## Events -/

/-- The last click is here now. -/
def click (win : Option Nat) (now : UInt32) (x y : Int) (s : Manager) : Manager :=
  { s with last_click_win := win, last_click_tick := now, last_click_x := x, last_click_y := y }

/-- `last_click_win == win && now - last_click_tick < 50`. -/
def again (win : Nat) (now : UInt32) (s : Manager) : Bool := s.last_click_win = some win && now - s.last_click_tick < 50

/-- The last click was close to this place. -/
def near (x y : Int) (s : Manager) : Bool :=
  let dx := x - s.last_click_x
  let dy := y - s.last_click_y
  decide (dx * dx + dy * dy < 64)

def deliver (win : Nat) (kind : MouseKind) (x y : Int) (buttons : UInt8) (wheel : Int) (s : Manager) : Outcome :=
  ⟨s, some (.mouse win (x - (s.windows win).x) (y - (s.windows win).y - WM_TITLEBAR_H) kind buttons wheel), true⟩

/-- The right button goes down over `win`. -/
def press_right (ev : MouseEvent) (win : Nat) (hit : Hit) (s : Manager) : Outcome :=
  let s := wm_focus (some win) s
  if hit = .caption ∨ hit = .icon then ⟨s, some (.sysmenu win ev.x ev.y), true⟩
  else deliver win .rightDown ev.x ev.y ev.buttons 0 s

/-- The left button goes down over `win`. -/
def press_left (ev : MouseEvent) (now : UInt32) (surface : Bool) (win : Nat) (hit : Hit) (s : Manager) : Outcome :=
  let s := set_hover (some win) hit.button (wm_focus (some win) s)
  let v := s.windows win
  match hit with
  | .btn b => ⟨{ s with pressed_button := some b }, none, true⟩
  | .edge e =>
    ⟨{ s with
        drag_mode := .resize
        drag_win := some win
        drag_edge := e
        drag_anchor_r := v.x + v.w
        drag_anchor_b := v.y + v.h
        drag_grab_x := if e = .l ∨ e = .tl ∨ e = .bl then ev.x - v.x else v.x + v.w - ev.x
        drag_grab_y := if e = .t ∨ e = .tl ∨ e = .tr then ev.y - v.y else v.y + v.h - ev.y }, none, true⟩
  | .icon =>
    if again win now s then ⟨wm_close (some win) { s with last_click_win := none }, none, true⟩
    else ⟨click (some win) now ev.x ev.y s, some (.sysmenu win (v.x + ICON_X) (v.y + WM_TITLEBAR_H)), true⟩
  | .caption =>
    if again win now s && near ev.x ev.y s then
      ⟨wm_toggle_maximize (some win) surface { s with last_click_win := none }, none, true⟩
    else
      ⟨{ click (some win) now ev.x ev.y s with
          drag_mode := .move
          drag_win := some win
          drag_moved := false
          drag_origin_x := ev.x
          drag_origin_y := ev.y
          drag_grab_x := ev.x - v.x
          drag_grab_y := ev.y - v.y }, none, true⟩
  | _ =>
    let is_double := again win now s && near ev.x ev.y s
    deliver win (if is_double then .double else .down) ev.x ev.y ev.buttons 0
      (click (if is_double then none else some win) now ev.x ev.y s)

/-- The left button comes up, and `at_pointer` is what is under it. -/
def release_left (ev : MouseEvent) (surface : Bool) (at_pointer : Option (Nat × Hit)) (s : Manager) : Outcome :=
  match s.pressed_button with
  | some b =>
    let s := { s with pressed_button := none }
    match at_pointer with
    | some (win, hit) =>
      if hit = .btn b then
        match b with
        | .min => ⟨wm_minimize (some win) s, none, true⟩
        | .max => ⟨wm_toggle_maximize (some win) surface s, none, true⟩
        | .close => ⟨wm_close (some win) s, none, true⟩
      else ⟨s, none, true⟩
    | none => ⟨s, none, true⟩
  | none =>
    match at_pointer with
    | some (win, _) => deliver win .up ev.x ev.y ev.buttons 0 s
    | none => ⟨s, none, false⟩

/-- `wm_handle_mouse`; `now` is what `pit_get_ticks` answers. -/
def wm_handle_mouse (ev : MouseEvent) (now : UInt32) (surface : Bool) (s : Manager) : Outcome :=
  match if s.drag_mode ≠ .none then s.drag_win else none with
  | some win =>
    if has ev.released MOUSE_BUTTON_LEFT then ⟨drag_drop win surface s, none, true⟩
    else ⟨drag_to win ev.x ev.y surface s, none, true⟩
  | none =>
    let at_pointer := hit_at ev.x ev.y s
    if has ev.pressed MOUSE_BUTTON_RIGHT then
      match at_pointer with
      | none => ⟨s, none, false⟩
      | some (win, hit) => press_right ev win hit s
    else if has ev.pressed MOUSE_BUTTON_LEFT then
      match at_pointer with
      | none => ⟨set_hover none none s, none, false⟩
      | some (win, hit) => press_left ev now surface win hit s
    else if has ev.released MOUSE_BUTTON_LEFT then release_left ev surface at_pointer s
    else
      match at_pointer with
      | none => if ev.wheel ≠ 0 then ⟨s, none, false⟩ else ⟨set_hover none none s, none, false⟩
      | some (win, hit) =>
        if ev.wheel ≠ 0 then deliver win .wheel ev.x ev.y ev.buttons ev.wheel s
        else
          deliver win (if has ev.buttons MOUSE_BUTTON_LEFT then .drag else .move) ev.x ev.y ev.buttons 0
            (set_hover (some win) hit.button s)

/-! ## The manager under its calls and events -/

/-- A call into the window manager. -/
inductive Call
  | open (w h : Int) (surface : Bool)
  | close (win : Option Nat)
  | focus (win : Option Nat)
  | minimize (win : Option Nat)
  | unminimize (win : Option Nat)
  | maximize (win : Option Nat) (surface : Bool)
  | snap (win : Option Nat) (target : Snap) (surface : Bool)
  | restore (win : Option Nat) (surface : Bool)
  | toggleShowDesktop

def Call.run (s : Manager) : Call → Manager
  | .open w h surface => (wm_open w h surface s).1
  | .close win => wm_close win s
  | .focus win => wm_focus win s
  | .minimize win => wm_minimize win s
  | .unminimize win => wm_unminimize win s
  | .maximize win surface => wm_maximize win surface s
  | .snap win target surface => wm_snap win target surface s
  | .restore win surface => wm_restore win surface s
  | .toggleShowDesktop => wm_toggle_show_desktop s

/-- A press of the left button on a caption button: of which window, the how
many-th in its slot. -/
structure Press where
  win : Nat
  birth : Nat
  button : Button
  deriving DecidableEq

/-- The windows, how often each slot was opened, and on which caption button the
left button last went down. -/
structure Desk where
  wm : Manager
  births : Nat → Nat
  press : Option Press

def Desk.call (s : Desk) (c : Call) : Desk :=
  { s with
    wm := c.run s.wm
    births :=
      match c with
      | .open w h surface =>
        match (wm_open w h surface s.wm).2 with
        | some win => Function.update s.births win (s.births win + 1)
        | none => s.births
      | _ => s.births }

/-- Where a press of the left button lands. -/
def Desk.pressAt (s : Desk) (x y : Int) : Option Press :=
  match hit_at x y s.wm with
  | some (win, .btn b) => some ⟨win, s.births win, b⟩
  | _ => none

/-- The event itself, without what an application then does. -/
def Desk.event (s : Desk) (ev : MouseEvent) (now : UInt32) (surface : Bool) : Desk :=
  { s with
    wm := (wm_handle_mouse ev now surface s.wm).wm
    press := if has ev.pressed MOUSE_BUTTON_LEFT then s.pressAt ev.x ev.y else s.press }

/-- Calls one after the other. -/
def calls : Machine Desk Call Unit where
  step s c := (s.call c, ())

/-- What happens to the manager: a call, or an event with the calls its callback makes. -/
inductive Act
  | call (c : Call)
  | mouse (ev : MouseEvent) (now : UInt32) (surface : Bool) (reaction : List Call)

def Desk.step (s : Desk) : Act → Desk
  | .call c => s.call c
  | .mouse ev now surface reaction =>
    match (wm_handle_mouse ev now surface s.wm).delivered with
    | some _ => calls.run (s.event ev now surface) reaction
    | none => s.event ev now surface

end NovarisOS.Wm
