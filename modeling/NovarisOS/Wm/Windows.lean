/-
NovarisOS.Wm.Windows — the windows and their order, as wm.c keeps them.

A window is a slot of a table of `WM_MAX_WINDOWS`, and a `window_t*` is the
number of one, `none` for the null pointer. `zorder` is the array of the open
ones from back to front, `zcount` its length.

Whether the heap has room for a surface is an argument of the calls that make
or resize one.
-/
import Mathlib.Data.List.Basic

namespace NovarisOS.Wm

abbrev WM_MAX_WINDOWS : Nat := 12
abbrev WM_TITLEBAR_H : Int := 32

/-- `WM_SNAP_*`. -/
inductive Snap
  | none | maximize | left | right | tl | tr | bl | br
  deriving DecidableEq

/-- The caption buttons, in the order of `HIT_BTN_MIN`, `HIT_BTN_MAX` and `HIT_BTN_CLOSE`. -/
inductive Button
  | min | max | close
  deriving DecidableEq

/-- The edges of a frame, in the order of `HIT_L` to `HIT_BR`. -/
inductive Edge
  | l | r | t | b | tl | tr | bl | br
  deriving DecidableEq

/-- `DRAG_*`. -/
inductive DragMode
  | none | move | resize
  deriving DecidableEq

structure Rect where
  x : Int
  y : Int
  w : Int
  h : Int

/-- `window_t`. -/
structure Window where
  x : Int := 0
  y : Int := 0
  w : Int := 0
  h : Int := 0
  min_w : Int := 0
  min_h : Int := 0
  isOpen : Bool := false
  minimized : Bool := false
  maximized : Bool := false
  snapped : Snap := .none
  resizable : Bool := false
  restore_x : Int := 0
  restore_y : Int := 0
  restore_w : Int := 0
  restore_h : Int := 0

/-- The static variables of wm.c. -/
structure Manager where
  windows : Nat → Window := fun _ => {}
  zorder : List Nat := []
  screen_w : Int := 640
  screen_h : Int := 480
  work_x : Int := 0
  work_y : Int := 0
  work_w : Int := 0
  work_h : Int := 0
  cascade : Nat := 0
  focused : Option Nat := none
  hover_win : Option Nat := none
  hover_button : Option Button := none
  pressed_button : Option Button := none
  drag_mode : DragMode := .none
  drag_win : Option Nat := none
  drag_grab_x : Int := 0
  drag_grab_y : Int := 0
  drag_edge : Edge := .l
  drag_origin_x : Int := 0
  drag_origin_y : Int := 0
  drag_anchor_r : Int := 0
  drag_anchor_b : Int := 0
  drag_moved : Bool := false
  pending_snap : Snap := .none
  hidden_by_show_desktop : List (Option Nat) := []
  last_click_tick : UInt32 := 0
  last_click_x : Int := 0
  last_click_y : Int := 0
  last_click_win : Option Nat := none

/-- A window's fields are written. -/
def Manager.set (s : Manager) (win : Nat) (f : Window → Window) : Manager :=
  { s with windows := Function.update s.windows win (f (s.windows win)) }

/-- `win->open && !win->minimized`. -/
def Manager.visible (s : Manager) (win : Nat) : Bool := (s.windows win).isOpen && !(s.windows win).minimized

/-! ## Order -/

def zorder_remove (win : Nat) (s : Manager) : Manager := { s with zorder := s.zorder.filter (· ≠ win) }

def zorder_raise (win : Nat) (s : Manager) : Manager :=
  let s := zorder_remove win s
  if s.zorder.length < WM_MAX_WINDOWS then { s with zorder := s.zorder ++ [win] } else s

def topmost_visible (s : Manager) : Option Nat := s.zorder.reverse.find? s.visible

/-! ## Opening, closing, focusing -/

def wm_init (w h top bottom : Int) (s : Manager) : Manager :=
  { s with
    screen_w := w
    screen_h := h
    work_x := 0
    work_y := top
    work_w := w
    work_h := h - top - bottom
    zorder := []
    focused := none
    hidden_by_show_desktop := []
    windows := fun i => if i < WM_MAX_WINDOWS then { s.windows i with isOpen := false } else s.windows i }

/-- The first slot of the table that no open window has. -/
def free_slot (s : Manager) : Option Nat := (List.range WM_MAX_WINDOWS).find? fun i => !(s.windows i).isOpen

/-- `wm_open`; `surface` says whether the heap can back it. -/
def wm_open (w h : Int) (surface : Bool) (s : Manager) : Manager × Option Nat :=
  match free_slot s with
  | none => (s, none)
  | some win =>
    let w := if w > s.work_w - 20 then s.work_w - 20 else w
    let h := if h > s.work_h - 20 then s.work_h - 20 else h
    if !surface then (s, none)
    else
      let slot : Int := (s.cascade % 6 : Nat)
      let x := s.work_x + (s.work_w - w).tdiv 2 + slot * 26 - 65
      let y := s.work_y + 26 + slot * 24
      let x := if x < s.work_x + 12 then s.work_x + 12 else x
      let x := if x + w > s.work_x + s.work_w - 12 then s.work_x + s.work_w - 12 - w else x
      let y := if y + h > s.work_y + s.work_h then s.work_y + 12 else y
      let s := s.set win fun _ =>
        { x, y, w, h, min_w := 260, min_h := 140, isOpen := true, resizable := true
          restore_x := x, restore_y := y, restore_w := w, restore_h := h }
      ({ zorder_raise win s with cascade := s.cascade + 1, focused := some win }, some win)

def set_hover (win : Option Nat) (button : Option Button) (s : Manager) : Manager :=
  { s with hover_win := win, hover_button := button }

/-- The references to a window that is open no more. -/
def forget (win : Nat) (s : Manager) : Manager :=
  { s with
    focused := if s.focused = some win then topmost_visible s else s.focused
    hover_win := if s.hover_win = some win then none else s.hover_win
    hover_button := if s.hover_win = some win then none else s.hover_button
    drag_win := if s.drag_win = some win then none else s.drag_win
    drag_mode := if s.drag_win = some win then .none else s.drag_mode
    last_click_win := if s.last_click_win = some win then none else s.last_click_win
    hidden_by_show_desktop := s.hidden_by_show_desktop.map fun v => if v = some win then none else v }

def wm_close (win : Option Nat) (s : Manager) : Manager :=
  match win with
  | none => s
  | some win =>
    if !(s.windows win).isOpen then s
    else forget win (zorder_remove win (s.set win fun v => { v with isOpen := false }))

def wm_unminimize (win : Option Nat) (s : Manager) : Manager :=
  match win with
  | none => s
  | some win =>
    if !(s.windows win).isOpen || !(s.windows win).minimized then s
    else { zorder_raise win (s.set win fun v => { v with minimized := false }) with focused := some win }

def wm_focus (win : Option Nat) (s : Manager) : Manager :=
  match win with
  | none => s
  | some win =>
    if !(s.windows win).isOpen then s
    else
      let s := if (s.windows win).minimized then wm_unminimize (some win) s else s
      if s.focused = some win ∧ s.zorder.getLast? = some win then s
      else zorder_raise win { s with focused := some win }

def wm_minimize (win : Option Nat) (s : Manager) : Manager :=
  match win with
  | none => s
  | some win =>
    if !(s.windows win).isOpen || (s.windows win).minimized then s
    else
      let s := s.set win fun v => { v with minimized := true }
      set_hover none none { s with focused := if s.focused = some win then topmost_visible s else s.focused }

/-! ## Frames -/

def wm_move (win : Nat) (x y : Int) (s : Manager) : Manager :=
  if !(s.windows win).isOpen then s
  else
    let v := s.windows win
    let y := if y < s.work_y then s.work_y else y
    let y := if y > s.work_y + s.work_h - WM_TITLEBAR_H then s.work_y + s.work_h - WM_TITLEBAR_H else y
    let x := if x + v.w < 80 then 80 - v.w else x
    let x := if x > s.screen_w - 80 then s.screen_w - 80 else x
    if x = v.x ∧ y = v.y then s else s.set win fun v => { v with x, y }

/-- `set_frame`; `surface` says whether the surface can be resized. -/
def set_frame (win : Nat) (x y w h : Int) (surface : Bool) (s : Manager) : Manager :=
  let v := s.windows win
  let w := if w < v.min_w then v.min_w else w
  let h := if h < v.min_h then v.min_h else h
  let w := if w > s.screen_w then s.screen_w else w
  let h := if h > s.work_h then s.work_h else h
  let y := if y < s.work_y then s.work_y else y
  if (w ≠ v.w ∨ h ≠ v.h) ∧ !surface then s else s.set win fun v => { v with x, y, w, h }

def save_restore_frame (win : Nat) (s : Manager) : Manager :=
  let v := s.windows win
  if v.maximized ∨ v.snapped ≠ .none then s
  else s.set win fun v => { v with restore_x := v.x, restore_y := v.y, restore_w := v.w, restore_h := v.h }

def snap_rect (target : Snap) (s : Manager) : Rect :=
  let hw := s.work_w.tdiv 2
  let hh := s.work_h.tdiv 2
  match target with
  | .left => ⟨s.work_x, s.work_y, hw, s.work_h⟩
  | .right => ⟨s.work_x + hw, s.work_y, s.work_w - hw, s.work_h⟩
  | .tl => ⟨s.work_x, s.work_y, hw, hh⟩
  | .tr => ⟨s.work_x + hw, s.work_y, s.work_w - hw, hh⟩
  | .bl => ⟨s.work_x, s.work_y + hh, hw, s.work_h - hh⟩
  | .br => ⟨s.work_x + hw, s.work_y + hh, s.work_w - hw, s.work_h - hh⟩
  | _ => ⟨s.work_x, s.work_y, s.work_w, s.work_h⟩

def wm_maximize (win : Option Nat) (surface : Bool) (s : Manager) : Manager :=
  match win with
  | none => s
  | some win =>
    if !(s.windows win).isOpen || !(s.windows win).resizable || (s.windows win).maximized then s
    else
      let s := save_restore_frame win s
      let r := snap_rect .maximize s
      let s := set_frame win r.x r.y r.w r.h surface s
      set_hover none none (s.set win fun v => { v with maximized := true, snapped := .none })

def wm_restore (win : Option Nat) (surface : Bool) (s : Manager) : Manager :=
  match win with
  | none => s
  | some win =>
    if !(s.windows win).isOpen then s
    else if !(s.windows win).maximized && (s.windows win).snapped = .none then s
    else
      let s := s.set win fun v => { v with maximized := false, snapped := .none }
      let v := s.windows win
      set_hover none none (set_frame win v.restore_x v.restore_y v.restore_w v.restore_h surface s)

def wm_toggle_maximize (win : Option Nat) (surface : Bool) (s : Manager) : Manager :=
  match win with
  | none => s
  | some win =>
    if !(s.windows win).isOpen || !(s.windows win).resizable then s
    else if (s.windows win).maximized then wm_restore (some win) surface s
    else wm_maximize (some win) surface s

def wm_snap (win : Option Nat) (target : Snap) (surface : Bool) (s : Manager) : Manager :=
  match win with
  | none => s
  | some win =>
    if !(s.windows win).isOpen then s
    else if target = .none then wm_restore (some win) surface s
    else if target = .maximize then wm_maximize (some win) surface s
    else if !(s.windows win).resizable then s
    else
      let s := save_restore_frame win s
      let r := snap_rect target s
      let s := set_frame win r.x r.y r.w r.h surface s
      set_hover none none (s.set win fun v => { v with maximized := false, snapped := target })

def wm_toggle_show_desktop (s : Manager) : Manager :=
  if !s.zorder.any s.visible then
    { s.hidden_by_show_desktop.foldl (fun s win => wm_unminimize win s) s with hidden_by_show_desktop := [] }
  else
    let hidden := ((s.zorder.filter s.visible).take WM_MAX_WINDOWS).map some
    hidden.reverse.foldl (fun s win => wm_minimize win s) { s with hidden_by_show_desktop := hidden }

end NovarisOS.Wm
