/-
NovarisOS.Wm.Frames — where a window is: under a resize drag, and behind a
maximize and its restore.

A resize drag works out the frame from what was noted at the press, and
`set_frame` then clamps the size without looking at which edge is anchored.
`Fits` is what a position of the pointer must satisfy for that to be harmless:
the frame it asks for is no larger than the work area, and leaves the title
bar in reach.
-/
import NovarisOS.Wm.References

namespace NovarisOS.Wm

variable {s s₀ : Manager} {win : Nat} {e : Edge} {v v' : Window}

/-! ## The frames -/

def Edge.left : Edge → Bool
  | .l | .tl | .bl => true
  | _ => false

def Edge.right : Edge → Bool
  | .r | .tr | .br => true
  | _ => false

def Edge.top : Edge → Bool
  | .t | .tl | .tr => true
  | _ => false

def Edge.bottom : Edge → Bool
  | .b | .bl | .br => true
  | _ => false

/-- The edges that were not grabbed are where they were. -/
structure Anchored (e : Edge) (v v' : Window) : Prop where
  left : e.left = false → v'.x = v.x
  right : e.right = false → v'.x + v'.w = v.x + v.w
  top : e.top = false → v'.y = v.y
  bottom : e.bottom = false → v'.y + v'.h = v.y + v.h

/-- The size is between the minimum and the work area. -/
structure Sized (s : Manager) (v : Window) : Prop where
  min_w : v.min_w ≤ v.w
  min_h : v.min_h ≤ v.h
  max_w : v.w ≤ s.work_w
  max_h : v.h ≤ s.work_h

/-- `wm_move` would leave the window there. -/
structure Allowed (s : Manager) (v : Window) : Prop where
  above : s.work_y ≤ v.y
  below : v.y ≤ s.work_y + s.work_h - WM_TITLEBAR_H
  left : 80 ≤ v.x + v.w
  right : v.x ≤ s.screen_w - 80

/-- The frame is what a drag of the edge `e` of `v` may make of it. -/
structure Good (s : Manager) (e : Edge) (v v' : Window) : Prop where
  anchored : Anchored e v v'
  sized : Sized s v'
  allowed : Allowed s v'

/-- The pointer is `dx` and `dy` from where it went down, and the frame that
asks for is no larger than the work area and has its title bar in reach. -/
structure Fits (s : Manager) (e : Edge) (v : Window) (dx dy : Int) : Prop where
  wide : e.left = true → v.w - dx ≤ s.work_w
  left : e.left = true → v.x + dx ≤ s.screen_w - 80 ∨ v.x + v.w - v.min_w ≤ s.screen_w - 80
  right : e.right = true → 80 ≤ v.x + v.w + dx ∨ 80 ≤ v.x + v.min_w
  tall : e.top = true → v.h - dy ≤ s.work_h ∨ v.y + v.h ≤ s.work_y + s.work_h
  top : e.top = true → v.y + dy ≤ s.work_y + s.work_h - WM_TITLEBAR_H ∨
    v.y + v.h - v.min_h ≤ s.work_y + s.work_h - WM_TITLEBAR_H

/-- The work area is as wide as the screen and holds the smallest such
window. -/
structure Holds (s : Manager) (v : Window) : Prop where
  work_w : s.work_w = s.screen_w
  min_w : v.min_w ≤ s.work_w
  min_h : v.min_h ≤ s.work_h

/-! ## One step of a drag -/

theorem set_frame_eq (win : Nat) (x y w h : Int) (surface : Bool) (s : Manager) :
    set_frame win x y w h surface s =
      if (min (max w (s.windows win).min_w) s.screen_w ≠ (s.windows win).w ∨
          min (max h (s.windows win).min_h) s.work_h ≠ (s.windows win).h) ∧ !surface then s
      else s.set win fun v =>
        { v with
          x := x
          y := max y s.work_y
          w := min (max w v.min_w) s.screen_w
          h := min (max h v.min_h) s.work_h } := by
  have hmin : ∀ a b : Int, (if a > b then b else a) = min a b := by
    intro a b
    split_ifs <;> omega
  have hmax : ∀ a b : Int, (if a < b then b else a) = max a b := by
    intro a b
    split_ifs <;> omega
  simp only [set_frame, Manager.set, hmin, hmax]

theorem set_frame_true (win : Nat) (x y w h : Int) (s : Manager) :
    set_frame win x y w h true s = s.set win fun v =>
      { v with
        x := x
        y := max y s.work_y
        w := min (max w v.min_w) s.screen_w
        h := min (max h v.min_h) s.work_h } := by
  rw [set_frame_eq, if_neg (by simp)]

theorem set_frame_false (win : Nat) (x y w h : Int) (s : Manager) :
    set_frame win x y w h false s = s ∨ set_frame win x y w h false s = set_frame win x y w h true s := by
  rw [set_frame_true, set_frame_eq]
  split
  · exact .inl rfl
  · exact .inr rfl

variable {x y px py : Int}

theorem set_frame_same {w h : Int} (surface : Bool)
    (hw : min (max w (s.windows win).min_w) s.screen_w = (s.windows win).w)
    (hh : min (max h (s.windows win).min_h) s.work_h = (s.windows win).h) :
    set_frame win x y w h surface s = set_frame win x y w h true s := by
  rw [set_frame_true, set_frame_eq, if_neg (by simp [hw, hh])]

/-- The frame that `drag_resize_to` asks for. -/
def wanted (s : Manager) (v : Window) (x y : Int) : Rect :=
  let e := s.drag_edge
  let nx := if e.left then min (x - s.drag_grab_x) (s.drag_anchor_r - v.min_w) else v.x
  let nw := if e.left then s.drag_anchor_r - nx else if e.right then x - v.x + s.drag_grab_x else v.w
  let ny := if e.top then max (min (y - s.drag_grab_y) (s.drag_anchor_b - v.min_h)) s.work_y else v.y
  let nh := if e.top then s.drag_anchor_b - ny else if e.bottom then y - v.y + s.drag_grab_y else v.h
  ⟨nx, ny, nw, nh⟩

theorem drag_resize_eq (win : Nat) (x y : Int) (surface : Bool) (s : Manager) :
    drag_resize_to win x y surface s =
      set_frame win (wanted s (s.windows win) x y).x (wanted s (s.windows win) x y).y
        (wanted s (s.windows win) x y).w (wanted s (s.windows win) x y).h surface s := by
  have hmin : ∀ a b c : Int, (if a - b < c then (a - c, c) else (b, a - b)) = (min b (a - c), a - min b (a - c)) := by
    intro a b c
    split_ifs <;> simp only [Prod.mk.injEq] <;> omega
  have hmax : ∀ a b c : Int, (if b < c then (c, a - c) else (b, a - b)) = (max b c, a - max b c) := by
    intro a b c
    split_ifs <;> simp only [Prod.mk.injEq] <;> omega
  unfold drag_resize_to wanted
  cases s.drag_edge <;>
    simp only [Edge.left, Edge.right, Edge.top, Edge.bottom, reduceCtorEq, or_self, or_true, or_false,
      if_true, if_false, Bool.false_eq_true, hmin, hmax]

/-- A drag of the edge `e` of `win` is on; it began in `s₀`, with the pointer
at (`px`, `py`). -/
structure Dragging (s₀ s : Manager) (win : Nat) (e : Edge) (px py : Int) : Prop where
  mode : s.drag_mode = .resize
  drag_win : s.drag_win = some win
  edge : s.drag_edge = e
  anchor_r : s.drag_anchor_r = (s₀.windows win).x + (s₀.windows win).w
  anchor_b : s.drag_anchor_b = (s₀.windows win).y + (s₀.windows win).h
  grab_x : s.drag_grab_x =
    if e.left then px - (s₀.windows win).x else (s₀.windows win).x + (s₀.windows win).w - px
  grab_y : s.drag_grab_y =
    if e.top then py - (s₀.windows win).y else (s₀.windows win).y + (s₀.windows win).h - py
  screen_w : s.screen_w = s₀.screen_w
  work_y : s.work_y = s₀.work_y
  work_w : s.work_w = s₀.work_w
  work_h : s.work_h = s₀.work_h
  min_w : (s.windows win).min_w = (s₀.windows win).min_w
  min_h : (s.windows win).min_h = (s₀.windows win).min_h

theorem Dragging.set_frame (h : Dragging s₀ s win e px py) (x y w d : Int) (surface : Bool) :
    Dragging s₀ (Wm.set_frame win x y w d surface s) win e px py := by
  have htrue : Dragging s₀ (Wm.set_frame win x y w d true s) win e px py := by
    rw [set_frame_true]
    exact ⟨h.mode, h.drag_win, h.edge, h.anchor_r, h.anchor_b, h.grab_x, h.grab_y, h.screen_w, h.work_y, h.work_w,
      h.work_h, by simpa [Manager.set] using h.min_w, by simpa [Manager.set] using h.min_h⟩
  cases surface with
  | true => exact htrue
  | false =>
    rcases set_frame_false win x y w d s with hf | hf
    · rw [hf]; exact h
    · rw [hf]; exact htrue

theorem across_iff {lo size w least most d X W : Int} {near far : Bool} (hone : near = true → far = false)
    (hholds : least ≤ most) (hnear : near = false → x = lo) (hfar : far = false → x + w = lo + size)
    (hleast : least ≤ w) (hmost : w ≤ most) (hx : x ≤ most - 80) (hxw : 80 ≤ x + w)
    (hX : X = if near = true then min (lo + d) (lo + size - least) else x)
    (hW : W = min (max (if near = true then lo + size - X else if far = true then size + d else w) least) most) :
    ((near = false → X = lo) ∧ (far = false → X + W = lo + size) ∧ least ≤ W ∧ W ≤ most ∧ 80 ≤ X + W ∧ X ≤ most - 80) ↔
    (near = true → size - d ≤ most) ∧ (near = true → lo + d ≤ most - 80 ∨ lo + size - least ≤ most - 80) ∧
      (far = true → 80 ≤ lo + size + d ∨ 80 ≤ lo + least) := by
  cases near with
  | true =>
    obtain rfl := hone rfl
    rw [if_pos rfl] at hX hW
    have hright := hfar rfl
    simp only [Bool.true_eq_false, Bool.false_eq_true, false_implies, true_and, and_true, true_implies]
    omega
  | false =>
    rw [if_neg nofun] at hX hW
    have hlo := hnear rfl
    cases far with
    | true =>
      rw [if_pos rfl] at hW
      simp only [Bool.true_eq_false, Bool.false_eq_true, false_implies, true_and, true_implies]
      omega
    | false =>
      rw [if_neg nofun, Int.max_eq_left hleast, Int.min_eq_left hmost] at hW
      have hright := hfar rfl
      simp only [Bool.false_eq_true, false_implies, and_true, true_implies, iff_true]
      omega

theorem down_iff {lo size h least most top d Y H : Int} {near far : Bool} (hone : near = true → far = false)
    (hholds : least ≤ most) (hnear : near = false → y = lo) (hfar : far = false → y + h = lo + size)
    (hleast : least ≤ h) (hmost : h ≤ most) (hy : top ≤ y) (hyb : y ≤ top + most - 32)
    (hY : Y = if near = true then max (min (lo + d) (lo + size - least)) top else y)
    (hH : H = min (max (if near = true then lo + size - Y else if far = true then size + d else h) least) most) :
    ((near = false → max Y top = lo) ∧ (far = false → max Y top + H = lo + size) ∧ least ≤ H ∧
      H ≤ most ∧ top ≤ max Y top ∧
      max Y top ≤ top + most - 32) ↔
    (near = true → size - d ≤ most ∨ lo + size ≤ top + most) ∧
      (near = true → lo + d ≤ top + most - 32 ∨ lo + size - least ≤ top + most - 32) := by
  cases near with
  | true =>
    obtain rfl := hone rfl
    rw [if_pos rfl] at hY hH
    have hbottom := hfar rfl
    simp only [Bool.true_eq_false, false_implies, true_and, true_implies]
    omega
  | false =>
    rw [if_neg nofun] at hY hH
    have hat := hnear rfl
    have hstay : max Y top = lo := by omega
    rw [hstay]
    cases far with
    | true =>
      simp only [Bool.true_eq_false, Bool.false_eq_true, false_implies, true_and, true_implies, and_true, iff_true]
      omega
    | false =>
      rw [if_neg nofun, Int.max_eq_left hleast, Int.min_eq_left hmost] at hH
      have hbottom := hfar rfl
      simp only [Bool.false_eq_true, false_implies, and_true, true_and, true_implies, iff_true]
      omega

theorem Edge.one_side (e : Edge) : (e.left = true → e.right = false) ∧ (e.top = true → e.bottom = false) := by
  cases e <;> decide

theorem Dragging.wanted_eq (h : Dragging s₀ s win e px py)
    (hx : e.left = false → (s.windows win).x = (s₀.windows win).x)
    (hy : e.top = false → (s.windows win).y = (s₀.windows win).y) (x y : Int) :
    let v₀ := s₀.windows win
    let v := s.windows win
    let r := wanted s v x y
    r.x = (if e.left = true then min (v₀.x + (x - px)) (v₀.x + v₀.w - v₀.min_w) else v.x) ∧
    r.w = (if e.left = true then v₀.x + v₀.w - r.x else if e.right = true then v₀.w + (x - px) else v.w) ∧
    r.y = (if e.top = true then max (min (v₀.y + (y - py)) (v₀.y + v₀.h - v₀.min_h)) s₀.work_y else v.y) ∧
    r.h = (if e.top = true then v₀.y + v₀.h - r.y else if e.bottom = true then v₀.h + (y - py) else v.h) := by
  simp only [wanted, h.edge, h.anchor_r, h.anchor_b, h.grab_x, h.grab_y, h.work_y, h.min_w, h.min_h]
  refine ⟨?_, ?_, ?_, ?_⟩
  · split
    · congr 1; omega
    · rfl
  · split
    · rfl
    · next hleft =>
      rw [hx (by simpa using hleft)]
      split
      · omega
      · rfl
  · split
    · congr 2; omega
    · rfl
  · split
    · rfl
    · next htop =>
      rw [hy (by simpa using htop)]
      split
      · omega
      · rfl

theorem Dragging.good_iff (h : Dragging s₀ s win e px py) (hold : Holds s₀ (s₀.windows win))
    (hg : Good s₀ e (s₀.windows win) (s.windows win)) (x y : Int) :
    Good s₀ e (s₀.windows win) ((drag_resize_to win x y true s).windows win) ↔
      Fits s₀ e (s₀.windows win) (x - px) (y - py) := by
  obtain ⟨⟨hal, har, hat, hab⟩, ⟨hsw, hsh, hmw, hmh⟩, ⟨haa, hbb, hll, hrr⟩⟩ := hg
  have hww := hold.work_w
  have hminw := hold.min_w
  have hminh := hold.min_h
  obtain ⟨hX, hW, hY, hH⟩ := h.wanted_eq hal hat x y
  rw [drag_resize_eq, set_frame_true, windows_set, if_pos rfl, h.screen_w, h.work_y, h.work_h]
  generalize wanted s (s.windows win) x y = r at hX hW hY hH ⊢
  have hmin_w := h.min_w
  have hmin_h := h.min_h
  rw [hmin_w] at hsw
  rw [hmin_h] at hsh
  rw [← hww] at hrr ⊢
  have hacross := across_iff e.one_side.1 hminw hal har hsw hmw hrr hll hX
      (congrArg (fun a => min (max a (s₀.windows win).min_w) s₀.work_w) hW)
  have hdown := down_iff e.one_side.2 hminh hat hab hsh hmh haa hbb hY
      (congrArg (fun a => min (max a (s₀.windows win).min_h) s₀.work_h) hH)
  constructor
  · rintro ⟨⟨hl, hr, ht, hb⟩, ⟨h₁, h₂, h₃, h₄⟩, ⟨h₅, h₆, h₇, h₈⟩⟩
    simp only [hmin_w, hmin_h, ← hww] at h₁ h₂ h₃ h₄ h₅ h₆ h₇ h₈ hr hb
    obtain ⟨hwide, hleft, hright⟩ := hacross.mp ⟨hl, hr, h₁, h₃, h₇, h₈⟩
    obtain ⟨htall, htop⟩ := hdown.mp ⟨ht, hb, h₂, h₄, h₅, h₆⟩
    exact ⟨hwide, by rw [← hold.work_w]; exact hleft, hright, htall, htop⟩
  · rintro ⟨hwide, hleft, hright, htall, htop⟩
    rw [← hww] at hleft
    simp only [hmin_w, hmin_h]
    obtain ⟨hl, hr, h₁, h₃, h₇, h₈⟩ := hacross.mpr ⟨hwide, hleft, hright⟩
    obtain ⟨ht, hb, h₂, h₄, h₅, h₆⟩ := hdown.mpr ⟨htall, htop⟩
    exact ⟨⟨hl, hr, ht, hb⟩, ⟨h₁, h₂, h₃, h₄⟩, ⟨h₅, h₆, h₇, by rw [← hold.work_w]; exact h₈⟩⟩

theorem Dragging.good_of_fits (h : Dragging s₀ s win e px py) (hold : Holds s₀ (s₀.windows win))
    (hg : Good s₀ e (s₀.windows win) (s.windows win))
    (hfits : Fits s₀ e (s₀.windows win) (x - px) (y - py)) (surface : Bool) :
    Good s₀ e (s₀.windows win) ((drag_resize_to win x y surface s).windows win) := by
  have htrue := (h.good_iff hold hg x y).mpr hfits
  cases surface with
  | true => exact htrue
  | false =>
    rw [drag_resize_eq] at htrue ⊢
    rcases set_frame_false win _ _ _ _ s with hf | hf
    · rw [hf]; exact hg
    · rw [hf]; exact htrue

/-! ## The whole drag -/

/-- An event while a button is down, with what the clock and the heap answer. -/
abbrev Move : Type := MouseEvent × UInt32 × Bool

def moves (s : Manager) (acts : List Move) : Manager :=
  acts.foldl (fun s a => (wm_handle_mouse a.1 a.2.1 a.2.2 s).wm) s

theorem moves_cons (s : Manager) (a : Move) (rest : List Move) :
    moves s (a :: rest) = moves (wm_handle_mouse a.1 a.2.1 a.2.2 s).wm rest := rfl

theorem Dragging.event (h : Dragging s₀ s win e px py) {ev : MouseEvent} (now : UInt32) (surface : Bool)
    (hev : has ev.released MOUSE_BUTTON_LEFT = false) :
    (wm_handle_mouse ev now surface s).wm = drag_resize_to win ev.x ev.y surface s := by
  have hmode : s.drag_mode ≠ .none := by rw [h.mode]; nofun
  have hmove : s.drag_mode ≠ .move := by rw [h.mode]; nofun
  simp only [wm_handle_mouse, if_pos hmode, h.drag_win, hev, Bool.false_eq_true, if_false, drag_to, if_neg hmove]

theorem Dragging.moves (acts : List Move) (h : Dragging s₀ s win e px py)
    (hacts : ∀ a ∈ acts, has a.1.released MOUSE_BUTTON_LEFT = false) :
    Dragging s₀ (Wm.moves s acts) win e px py := by
  induction acts generalizing s with
  | nil => exact h
  | cons a rest ih =>
    rw [moves_cons]
    refine ih ?_ fun b hb => hacts b (List.mem_cons_of_mem a hb)
    rw [h.event a.2.1 a.2.2 (hacts a List.mem_cons_self), drag_resize_eq]
    exact h.set_frame _ _ _ _ _

theorem Dragging.good_moves (acts : List Move) (h : Dragging s₀ s win e px py)
    (hacts : ∀ a ∈ acts, has a.1.released MOUSE_BUTTON_LEFT = false) (hold : Holds s₀ (s₀.windows win))
    (hg : Good s₀ e (s₀.windows win) (s.windows win))
    (hfits : ∀ a ∈ acts, Fits s₀ e (s₀.windows win) (a.1.x - px) (a.1.y - py)) :
    Good s₀ e (s₀.windows win) ((Wm.moves s acts).windows win) := by
  induction acts generalizing s with
  | nil => exact hg
  | cons a rest ih =>
    have hstep := h.event a.2.1 a.2.2 (hacts a List.mem_cons_self)
    have hdrag : Dragging s₀ (wm_handle_mouse a.1 a.2.1 a.2.2 s).wm win e px py :=
      h.moves [a] fun b hb => by rw [List.mem_singleton.mp hb]; exact hacts a List.mem_cons_self
    rw [moves_cons]
    refine ih hdrag (fun b hb => hacts b (List.mem_cons_of_mem a hb)) ?_ fun b hb => hfits b (List.mem_cons_of_mem a hb)
    rw [hstep]
    exact h.good_of_fits hold hg (hfits a List.mem_cons_self) a.2.2

theorem focus_eq (hopen : (s.windows win).isOpen = true) (hmin : (s.windows win).minimized = false) :
    ∃ z f, wm_focus (some win) s = { s with zorder := z, focused := f } := by
  unfold wm_focus
  dsimp only
  rw [if_neg (show ¬ (!(s.windows win).isOpen) = true by simp [hopen]),
    if_neg (show ¬ (s.windows win).minimized = true by simp [hmin])]
  split
  · exact ⟨s.zorder, s.focused, rfl⟩
  · unfold zorder_raise zorder_remove
    dsimp only
    split <;> exact ⟨_, _, rfl⟩

theorem press_edge {ev : MouseEvent} (now : UInt32) (surface : Bool) (hidle : s.drag_mode = .none)
    (hright : has ev.pressed MOUSE_BUTTON_RIGHT = false) (hleft : has ev.pressed MOUSE_BUTTON_LEFT = true)
    (hhit : hit_at ev.x ev.y s = some (win, .edge e)) :
    Dragging s (wm_handle_mouse ev now surface s).wm win e ev.x ev.y ∧
    (wm_handle_mouse ev now surface s).wm.windows win = s.windows win := by
  have hvisible : s.visible win = true := by
    obtain ⟨w, hw, heq⟩ := Option.map_eq_some_iff.mp hhit
    obtain rfl : w = win := congrArg Prod.fst heq
    have hfound := List.find?_some hw
    exact (Bool.and_eq_true_iff.1 hfound).1
  obtain ⟨hopen, hmin⟩ := visible_iff.mp hvisible
  obtain ⟨z, f, hfocus⟩ := focus_eq hopen hmin
  have hidle' : ¬ (s.drag_mode ≠ .none) := by simp [hidle]
  simp only [wm_handle_mouse, if_neg hidle', hright, hleft, hhit, Bool.false_eq_true, if_false,
      if_true, press_left, hfocus,
    set_hover]
  refine ⟨⟨rfl, rfl, rfl, rfl, rfl, ?_, ?_, rfl, rfl, rfl, rfl, rfl, rfl⟩, trivial⟩
  · cases e <;> simp [Edge.left]
  · cases e <;> simp [Edge.top]

/-- A resize drag does what it should, whatever the heap answers at each
step, if and only if the window is no larger than the work area and every
position of the pointer fits. -/
theorem resize_good_iff {press : MouseEvent} (now : UInt32) (surface : Bool) (hidle : s.drag_mode = .none)
    (hright : has press.pressed MOUSE_BUTTON_RIGHT = false) (hleft : has press.pressed MOUSE_BUTTON_LEFT = true)
    (hhit : hit_at press.x press.y s = some (win, .edge e)) (hold : Holds s (s.windows win))
    (hminw : (s.windows win).min_w ≤ (s.windows win).w) (hminh : (s.windows win).min_h ≤ (s.windows win).h)
    (hallowed : Allowed s (s.windows win)) (evs : List (MouseEvent × UInt32))
    (hevs : ∀ ev ∈ evs, has ev.1.released MOUSE_BUTTON_LEFT = false) :
    (∀ acts : List Move, acts.map (fun a => (a.1, a.2.1)) <+: evs →
      Good s e (s.windows win) ((moves (wm_handle_mouse press now surface s).wm acts).windows win)) ↔
    ((s.windows win).w ≤ s.work_w ∧ (s.windows win).h ≤ s.work_h) ∧
      ∀ ev ∈ evs, Fits s e (s.windows win) (ev.1.x - press.x) (ev.1.y - press.y) := by
  obtain ⟨hdrag, hsame⟩ := press_edge now surface hidle hright hleft hhit
  generalize (wm_handle_mouse press now surface s).wm = s₁ at hdrag hsame ⊢
  have hreleased : ∀ acts : List Move, acts.map (fun a => (a.1, a.2.1)) <+: evs →
      ∀ a ∈ acts, (a.1, a.2.1) ∈ evs := by
    intro acts hpre a ha
    exact hpre.subset (List.mem_map_of_mem ha)
  constructor
  · intro hall
    have hstart : Good s e (s.windows win) (s₁.windows win) := hall [] List.nil_prefix
    refine ⟨⟨?_, ?_⟩, ?_⟩
    · have := hstart.sized.max_w
      rwa [hsame] at this
    · have := hstart.sized.max_h
      rwa [hsame] at this
    · intro ev hev
      -- the events before this one, and it, each with room for the surface
      obtain ⟨before, rest, rfl⟩ := List.append_of_mem hev
      let roomy := before.map fun ev => ((ev.1, ev.2, true) : Move)
      have hroomy : roomy.map (fun a => (a.1, a.2.1)) = before := by rw [List.map_map]; exact List.map_id before
      have hbefore := hall roomy ⟨ev :: rest, by rw [hroomy]⟩
      have hthere := hall (roomy ++ [(ev.1, ev.2, true)]) ⟨rest, by rw [List.map_append, hroomy]; simp⟩
      have hmoved : Dragging s (moves s₁ roomy) win e press.x press.y := by
        refine hdrag.moves roomy fun a ha => ?_
        obtain ⟨b, hb, rfl⟩ := List.mem_map.mp ha
        exact hevs b (List.mem_append_left _ hb)
      rw [moves, List.foldl_append, List.foldl_cons, List.foldl_nil] at hthere
      rw [← moves, hmoved.event ev.2 true (hevs ev hev)] at hthere
      exact (hmoved.good_iff hold hbefore ev.1.x ev.1.y).mp hthere
  · rintro ⟨⟨hw, hh⟩, hfits⟩ acts hpre
    have hstart : Good s e (s.windows win) (s₁.windows win) := by
      rw [hsame]
      exact ⟨⟨fun _ => rfl, fun _ => rfl, fun _ => rfl, fun _ => rfl⟩, ⟨hminw, hminh, hw, hh⟩, hallowed⟩
    exact hdrag.good_moves acts (fun a ha => hevs _ (hreleased acts hpre a ha)) hold hstart
      fun a ha => hfits _ (hreleased acts hpre a ha)

/-! ## Maximize, snap and back -/

/-- `wm_maximize`, or `wm_snap` to a target. -/
inductive Change
  | maximize
  | snap (target : Snap)

def Change.run (win : Nat) (surface : Bool) (s : Manager) : Change → Manager
  | .maximize => wm_maximize (some win) surface s
  | .snap target => wm_snap (some win) target surface s

/-- The calls on one window, each with what the heap answers. -/
def changes (win : Nat) : Machine Manager (Change × Bool) Unit where
  step s c := (c.1.run win c.2 s, ())

def Window.floating (v : Window) : Bool := !v.maximized && v.snapped = .none

/-- A snap to no target finds the room for the old size, if it needs it. -/
def Restores (win : Nat) (s : Manager) (c : Change × Bool) : Prop :=
  match c.1 with
  | .snap .none => (s.windows win).floating = true ∨ c.2 = true ∨
      ((s.windows win).w = (s.windows win).restore_w ∧ (s.windows win).h = (s.windows win).restore_h)
  | _ => True

/-- The second window has the frame of the first. -/
structure SameFrame (v v' : Window) : Prop where
  x : v'.x = v.x
  y : v'.y = v.y
  w : v'.w = v.w
  h : v'.h = v.h

/-- The second window is to be restored to the frame of the first. -/
structure Remembered (v v' : Window) : Prop where
  x : v'.restore_x = v.x
  y : v'.restore_y = v.y
  w : v'.restore_w = v.w
  h : v'.restore_h = v.h

/-- The window has the frame it had in `s₀`, or that is where it is to be
restored to. -/
structure Remembers (s₀ s : Manager) (win : Nat) : Prop where
  isOpen : (s.windows win).isOpen = true
  screen_w : s.screen_w = s₀.screen_w
  work_y : s.work_y = s₀.work_y
  work_h : s.work_h = s₀.work_h
  min_w : (s.windows win).min_w = (s₀.windows win).min_w
  min_h : (s.windows win).min_h = (s₀.windows win).min_h
  floats : (s.windows win).floating = true → SameFrame (s₀.windows win) (s.windows win)
  returns : (s.windows win).floating = false → Remembered (s₀.windows win) (s.windows win)

theorem set_frame_cases (win : Nat) (x y w h : Int) (surface : Bool) (s : Manager) :
    ∃ a b c d, set_frame win x y w h surface s = s.set win fun v => { v with x := a, y := b, w := c, h := d } := by
  have hsame : s = s.set win fun v =>
      { v with x := (s.windows win).x, y := (s.windows win).y, w := (s.windows win).w, h := (s.windows win).h } := by
    simp [Manager.set]
  cases surface with
  | true => exact ⟨_, _, _, _, set_frame_true win x y w h s⟩
  | false =>
    rcases set_frame_false win x y w h s with hf | hf
    · exact ⟨_, _, _, _, hf.trans hsame⟩
    · exact ⟨_, _, _, _, hf.trans (set_frame_true win x y w h s)⟩

namespace Remembers

theorem save (h : Remembers s₀ s win) :
    Remembers s₀ (save_restore_frame win s) win ∧
      Remembered (s₀.windows win) ((save_restore_frame win s).windows win) := by
  unfold save_restore_frame
  dsimp only
  split
  · next hsnapped =>
    have hnot : (s.windows win).floating = false := by
      rcases hsnapped with hmax | hsnap
      · simp [Window.floating, hmax]
      · simp [Window.floating, hsnap]
    exact ⟨h, h.returns hnot⟩
  · next hfloats =>
    have hfloat : (s.windows win).floating = true := by
      simpa [Window.floating, not_or] using hfloats
    have hframe := h.floats hfloat
    have hnoted : Remembered (s₀.windows win)
        { s.windows win with
          restore_x := (s.windows win).x
          restore_y := (s.windows win).y
          restore_w := (s.windows win).w
          restore_h := (s.windows win).h } := ⟨hframe.x, hframe.y, hframe.w, hframe.h⟩
    have hself := windows_set s win (fun v =>
      { v with restore_x := v.x, restore_y := v.y, restore_w := v.w, restore_h := v.h }) win
    rw [if_pos rfl] at hself
    refine ⟨⟨?_, h.screen_w, h.work_y, h.work_h, ?_, ?_, fun _ => ?_, fun _ => ?_⟩, ?_⟩
    all_goals rw [hself]
    · exact h.isOpen
    · exact h.min_w
    · exact h.min_h
    · exact ⟨hframe.x, hframe.y, hframe.w, hframe.h⟩
    · exact hnoted
    · exact hnoted

theorem change (h : Remembers s₀ s win) (x y w d : Int) (surface maximized : Bool) {snapped : Snap}
    (hstate : maximized = true ∨ snapped ≠ .none) (hnoted : Remembered (s₀.windows win) (s.windows win)) :
    Remembers s₀ (set_hover none none
      ((set_frame win x y w d surface s).set win fun v =>
        { v with maximized := maximized, snapped := snapped })) win := by
  obtain ⟨a, b, c, e, hf⟩ := set_frame_cases win x y w d surface s
  have hself : (set_hover none none ((set_frame win x y w d surface s).set win fun v =>
      { v with maximized := maximized, snapped := snapped })).windows win =
      { s.windows win with
        x := a
        y := b
        w := c
        h := e
        maximized := maximized
        snapped := snapped } := by
    simp [hf, set_hover, Manager.set]
  have hnot : ¬ ({ s.windows win with
        x := a
        y := b
        w := c
        h := e
        maximized := maximized
        snapped := snapped } : Window).floating = true := by
    rcases hstate with hmax | hsnap
    · simp [Window.floating, hmax]
    · simp [Window.floating, hsnap]
  refine ⟨?_, ?_, ?_, ?_, ?_, ?_, fun hfloat => ?_, fun _ => ?_⟩
  · rw [hself]; exact h.isOpen
  · rw [hf]; exact h.screen_w
  · rw [hf]; exact h.work_y
  · rw [hf]; exact h.work_h
  · rw [hself]; exact h.min_w
  · rw [hself]; exact h.min_h
  · rw [hself] at hfloat; exact absurd hfloat hnot
  · rw [hself]; exact ⟨hnoted.x, hnoted.y, hnoted.w, hnoted.h⟩

theorem maximize (h : Remembers s₀ s win) (surface : Bool) : Remembers s₀ (wm_maximize (some win) surface s) win := by
  unfold wm_maximize
  dsimp only
  split
  · exact h
  · exact h.save.1.change _ _ _ _ surface true (.inl rfl) h.save.2

/-- With room for the old size, `wm_restore` gives the window its old
frame. -/
theorem restore (h : Remembers s₀ s win) {surface : Bool} (hsized : Sized s₀ (s₀.windows win))
    (hwide : s₀.work_w = s₀.screen_w) (hy : s₀.work_y ≤ (s₀.windows win).y)
    (hroom : (s.windows win).floating = true ∨ surface = true ∨
      ((s.windows win).w = (s.windows win).restore_w ∧ (s.windows win).h = (s.windows win).restore_h)) :
    Remembers s₀ (wm_restore (some win) surface s) win ∧
    SameFrame (s₀.windows win) ((wm_restore (some win) surface s).windows win) := by
  have hfloat : (!(s.windows win).maximized && (s.windows win).snapped = .none) = (s.windows win).floating := rfl
  unfold wm_restore
  dsimp only
  rw [if_neg (show ¬ (!(s.windows win).isOpen) = true by simp [h.isOpen])]
  split
  · next hfloats => exact ⟨h, h.floats (hfloat ▸ hfloats)⟩
  · next hfloats =>
    have hnot : (s.windows win).floating = false := by rw [← hfloat]; simpa using hfloats
    obtain ⟨hrx, hry, hrw, hrh⟩ := h.returns hnot
    obtain ⟨hmw, hmh, hxw, hxh⟩ := hsized
    generalize hs₁ : (s.set win fun v => { v with maximized := false, snapped := .none }) = s₁
    have hself : s₁.windows win = { s.windows win with maximized := false, snapped := .none } := by
      rw [← hs₁, windows_set, if_pos rfl]
    have hsw : s₁.screen_w = s₀.screen_w := by rw [← hs₁]; exact h.screen_w
    have hwy : s₁.work_y = s₀.work_y := by rw [← hs₁]; exact h.work_y
    have hwh : s₁.work_h = s₀.work_h := by rw [← hs₁]; exact h.work_h
    have hclampw : min (max (s₁.windows win).restore_w (s₁.windows win).min_w) s₁.screen_w = (s₀.windows win).w := by
      simp only [hself, hsw, hrw, h.min_w]
      omega
    have hclamph : min (max (s₁.windows win).restore_h (s₁.windows win).min_h) s₁.work_h = (s₀.windows win).h := by
      simp only [hself, hwh, hrh, h.min_h]
      omega
    have hframe : set_frame win (s₁.windows win).restore_x (s₁.windows win).restore_y (s₁.windows win).restore_w
        (s₁.windows win).restore_h surface s₁ =
        set_frame win (s₁.windows win).restore_x (s₁.windows win).restore_y (s₁.windows win).restore_w
        (s₁.windows win).restore_h true s₁ := by
      rcases hroom with hno | hyes | ⟨hw, hh⟩
      · exact absurd (hnot.symm.trans hno) (by simp)
      · rw [hyes]
      · refine set_frame_same surface ?_ ?_
        · rw [hclampw]; simp only [hself, hw, hrw]
        · rw [hclamph]; simp only [hself, hh, hrh]
    rw [hframe, set_frame_true]
    have hend : (set_hover none none (s₁.set win fun v =>
        { v with
          x := (s₁.windows win).restore_x
          y := max (s₁.windows win).restore_y s₁.work_y
          w := min (max (s₁.windows win).restore_w v.min_w) s₁.screen_w
          h := min (max (s₁.windows win).restore_h v.min_h) s₁.work_h })).windows win =
        { s.windows win with
          maximized := false
          snapped := .none
          x := (s₀.windows win).x
          y := (s₀.windows win).y
          w := (s₀.windows win).w
          h := (s₀.windows win).h } := by
      have hclampy : max (s₁.windows win).restore_y s₁.work_y = (s₀.windows win).y := by
        simp only [hself, hwy, hry]
        omega
      simp only [set_hover, windows_set, if_true, hclampw, hclamph, hclampy]
      simp only [hself, hrx]
    refine ⟨⟨?_, hsw, hwy, hwh, ?_, ?_, fun _ => ?_, fun hno => ?_⟩, ?_⟩
    · rw [hend]; exact h.isOpen
    · rw [hend]; exact h.min_w
    · rw [hend]; exact h.min_h
    · rw [hend]; exact ⟨rfl, rfl, rfl, rfl⟩
    · rw [hend] at hno; exact absurd hno (by simp [Window.floating])
    · rw [hend]; exact ⟨rfl, rfl, rfl, rfl⟩

theorem snap (h : Remembers s₀ s win) {target : Snap} {surface : Bool} (hsized : Sized s₀ (s₀.windows win))
    (hwide : s₀.work_w = s₀.screen_w) (hy : s₀.work_y ≤ (s₀.windows win).y)
    (hroom : Restores win s (.snap target, surface)) : Remembers s₀ (wm_snap (some win) target surface s) win := by
  unfold wm_snap
  dsimp only
  split
  · exact h
  · split
    · next htarget =>
      subst htarget
      exact (h.restore hsized hwide hy hroom).1
    · split
      · exact h.maximize surface
      · split
        · exact h
        · next hsome _ _ => exact h.save.1.change _ _ _ _ surface false (.inr hsome) h.save.2

end Remembers

theorem restored {calls : List (Change × Bool)} (hopen : (s.windows win).isOpen = true)
    (hfloats : (s.windows win).floating = true) (hsized : Sized s (s.windows win)) (hwide : s.work_w = s.screen_w)
    (hy : s.work_y ≤ (s.windows win).y) (hcalls : (changes win).Guarded (Restores win) s calls) :
    SameFrame (s.windows win) ((wm_restore (some win) true ((changes win).run s calls)).windows win) := by
  have hstart : Remembers s s win :=
    ⟨hopen, rfl, rfl, rfl, rfl, rfl, fun _ => ⟨rfl, rfl, rfl, rfl⟩,
      fun hno => absurd (hno.symm.trans hfloats) (by simp)⟩
  have hstep : ∀ s' c, Remembers s s' win → Restores win s' c → Remembers s ((changes win).step s' c).1 win := by
    intro s' c h hok
    obtain ⟨c, surface⟩ := c
    cases c with
    | maximize => exact h.maximize surface
    | snap target => exact h.snap hsized hwide hy hok
  have hrun := (changes win).invariant_of_step hstep calls s hstart hcalls
  exact (hrun.restore hsized hwide hy (.inr (.inl rfl))).2

/-- **A frame obeys the mouse and survives maximizing**: under a resize drag
if and only if the window is no larger than the work area and every position
fits, and behind a restore if every snap back on the way found its room. -/
theorem frames_obey_and_survive (s : Manager) (win : Nat) (hold : Holds s (s.windows win))
    (hopen : (s.windows win).isOpen = true) (hfloats : (s.windows win).floating = true)
    (hminw : (s.windows win).min_w ≤ (s.windows win).w) (hminh : (s.windows win).min_h ≤ (s.windows win).h)
    (hallowed : Allowed s (s.windows win)) :
    (∀ (e : Edge) (press : MouseEvent) (now : UInt32) (surface : Bool) (evs : List (MouseEvent × UInt32)),
      s.drag_mode = .none → has press.pressed MOUSE_BUTTON_RIGHT = false →
      has press.pressed MOUSE_BUTTON_LEFT = true → hit_at press.x press.y s = some (win, .edge e) →
      (∀ ev ∈ evs, has ev.1.released MOUSE_BUTTON_LEFT = false) →
      ((∀ acts : List Move, acts.map (fun a => (a.1, a.2.1)) <+: evs →
        Good s e (s.windows win) ((moves (wm_handle_mouse press now surface s).wm acts).windows win)) ↔
      ((s.windows win).w ≤ s.work_w ∧ (s.windows win).h ≤ s.work_h) ∧
        ∀ ev ∈ evs, Fits s e (s.windows win) (ev.1.x - press.x) (ev.1.y - press.y))) ∧
    ∀ calls : List (Change × Bool),
      (s.windows win).w ≤ s.work_w → (s.windows win).h ≤ s.work_h → (changes win).Guarded (Restores win) s calls →
      SameFrame (s.windows win) ((wm_restore (some win) true ((changes win).run s calls)).windows win) :=
  ⟨fun _ _ now surface evs hidle hright hleft hhit hevs =>
      resize_good_iff now surface hidle hright hleft hhit hold hminw hminh hallowed evs hevs,
    fun _ hw hh => restored hopen hfloats ⟨hminw, hminh, hw, hh⟩ hold.work_w hallowed.above⟩

/-- A screen with one window on it. -/
def desktop : Manager := (wm_open 600 400 true (wm_init 1024 768 0 40 {})).1

/-- The right edge is drawn out by fifty, and a maximized window comes
back. -/
theorem desktop_obeys :
    Good desktop .r (desktop.windows 0) ((moves (wm_handle_mouse ⟨745, 200, 0, 0, 1, 0⟩ 0 true desktop).wm
      [(⟨795, 200, 0, 0, 0, 0⟩, 0, true)]).windows 0) ∧
    SameFrame (desktop.windows 0)
      ((wm_restore (some 0) true ((changes 0).run desktop [(.maximize, true), (.snap .left, false)])).windows 0) := by
  obtain ⟨hdrag, hback⟩ := frames_obey_and_survive desktop 0 ⟨by decide, by decide, by decide⟩ (by decide) (by decide)
    (by decide) (by decide) ⟨by decide, by decide, by decide, by decide⟩
  refine ⟨?_, hback _ (by decide) (by decide) ⟨trivial, trivial, trivial⟩⟩
  refine (hdrag .r ⟨745, 200, 0, 0, 1, 0⟩ 0 true [(⟨795, 200, 0, 0, 0, 0⟩, 0)] (by decide)
      (by decide) (by decide) (by decide)
    (by decide)).mpr ⟨⟨by decide, by decide⟩, ?_⟩ _ (List.prefix_refl _)
  intro ev hev
  rw [List.mem_singleton.mp hev]
  exact ⟨by decide, by decide, by decide, by decide, by decide⟩

/-- The window hangs off the left of the screen, and its right edge is pushed
to the left: two pixels of it are on the screen. And a window that was
maximized, could not have its size back, and was maximized again comes back
maximized. -/
theorem dragged_off_and_not_restored :
    let s := wm_move 0 (-500) 200 desktop
    (hit_at 98 400 s = some (0, .edge .r) ∧ (s.windows 0).x + (s.windows 0).w = 100 ∧
      ∃ v, v = (moves (wm_handle_mouse ⟨98, 400, 0, 0, 1, 0⟩ 0 true s).wm [(⟨0, 400, 0, 0, 0, 0⟩, 0, true)]).windows 0 ∧
        v.x + v.w = 2) ∧
    ¬ SameFrame (desktop.windows 0) ((wm_restore (some 0) true
      ((changes 0).run desktop [(.maximize, true), (.snap .none, false), (.maximize, true)])).windows 0) := by
  refine ⟨⟨by decide, by decide, _, rfl, by decide⟩, fun h => ?_⟩
  exact absurd h.x (by decide)

end NovarisOS.Wm
