/-
NovarisOS.Wm.References — what the window manager keeps a reference to is an
open window.

`Refs` is the invariant, and `Refs.call` and `Refs.event` are its two steps. The
one idea in it is stronger than what is asked for: the focused window is
`topmost_visible` at all times, so closing or minimizing it has nothing to
repair but that one name.
-/
import Mathlib.Data.List.Nodup
import Mathlib.Data.List.Perm.Subperm
import NovarisOS.Wm.Mouse

namespace NovarisOS.Wm

variable {s s' s'' : Manager} {win w : Nat} {surface : Bool} {x y : Int}

/-! ## What stays -/

/-- What of a window an operation on frames does not touch. -/
def Window.flags (v : Window) : Bool × Bool × Bool := (v.isOpen, v.minimized, v.maximized)

/-- Only frames, and where the drag holds one, are different. -/
structure Still (s s' : Manager) : Prop where
  zorder : s'.zorder = s.zorder
  focused : s'.focused = s.focused
  drag_win : s'.drag_win = s.drag_win
  hover_win : s'.hover_win = s.hover_win
  last_click_win : s'.last_click_win = s.last_click_win
  pressed_button : s'.pressed_button = s.pressed_button
  flags : ∀ w, (s'.windows w).flags = (s.windows w).flags

theorem Still.refl (s : Manager) : Still s s := ⟨rfl, rfl, rfl, rfl, rfl, rfl, fun _ => rfl⟩

theorem Still.trans (h : Still s s') (h' : Still s' s'') : Still s s'' :=
  ⟨h'.zorder.trans h.zorder, h'.focused.trans h.focused, h'.drag_win.trans h.drag_win, h'.hover_win.trans h.hover_win,
    h'.last_click_win.trans h.last_click_win, h'.pressed_button.trans h.pressed_button, fun w =>
      (h'.flags w).trans (h.flags w)⟩

theorem windows_set (s : Manager) (win : Nat) (f : Window → Window) (w : Nat) :
    (s.set win f).windows w = if w = win then f (s.windows win) else s.windows w := by
  unfold Manager.set
  dsimp only
  rw [Function.update_apply]

variable {f : Window → Window}

theorem field_set {α : Type} (field : Window → α) (s : Manager) (win : Nat)
    (hf : field (f (s.windows win)) = field (s.windows win)) (w : Nat) :
    field ((s.set win f).windows w) = field (s.windows w) := by
  rw [windows_set]
  split
  · next h => rw [hf, h]
  · rfl

theorem Still.set (s : Manager) (win : Nat) (hf : (f (s.windows win)).flags = (s.windows win).flags) :
    Still s (s.set win f) :=
  ⟨rfl, rfl, rfl, rfl, rfl, rfl, field_set Window.flags s win hf⟩

theorem Still.ite {p : Prop} [Decidable p] (h : Still s s') (h' : Still s s'') : Still s (if p then s' else s'') := by
  split
  · exact h
  · exact h'

theorem Still.open (h : Still s s') (w : Nat) :
    (s'.windows w).isOpen = (s.windows w).isOpen := congrArg (·.1) (h.flags w)

theorem Still.minimized (h : Still s s') (w : Nat) : (s'.windows w).minimized = (s.windows w).minimized :=
  congrArg (·.2.1) (h.flags w)

theorem Still.maximized (h : Still s s') (w : Nat) : (s'.windows w).maximized = (s.windows w).maximized :=
  congrArg (·.2.2) (h.flags w)

theorem still_move (s : Manager) (win : Nat) (x y : Int) : Still s (wm_move win x y s) := by
  exact (Still.refl s).ite ((Still.refl s).ite (Still.set s win rfl))

theorem still_set_frame (s : Manager) (win : Nat) (x y w h : Int) (surface : Bool) :
    Still s (set_frame win x y w h surface s) := by
  exact (Still.refl s).ite (Still.set s win rfl)

theorem still_save_restore_frame (s : Manager) (win : Nat) : Still s (save_restore_frame win s) := by
  exact (Still.refl s).ite (Still.set s win rfl)

theorem still_drag_resize_to (s : Manager) (win : Nat) (x y : Int) (surface : Bool) :
    Still s (drag_resize_to win x y surface s) :=
  still_set_frame s win _ _ _ _ surface

/-- `win` is floating, snapped or maximized now, and everything else as it was. -/
structure Reframed (win : Nat) (s s' : Manager) : Prop where
  zorder : s'.zorder = s.zorder
  focused : s'.focused = s.focused
  drag_win : s'.drag_win = s.drag_win
  hover_win : s'.hover_win = s.hover_win ∨ s'.hover_win = none
  last_click_win : s'.last_click_win = s.last_click_win
  pressed_button : s'.pressed_button = s.pressed_button
  isOpen : ∀ w, (s'.windows w).isOpen = (s.windows w).isOpen
  minimized : ∀ w, (s'.windows w).minimized = (s.windows w).minimized
  others : ∀ w, w ≠ win → (s'.windows w).maximized = (s.windows w).maximized

theorem Still.reframed (h : Still s s') : Reframed win s s' :=
  ⟨h.zorder, h.focused, h.drag_win, Or.inl h.hover_win, h.last_click_win, h.pressed_button, h.open, h.minimized,
    fun w _ => h.maximized w⟩

theorem Reframed.refl (win : Nat) (s : Manager) : Reframed win s s := (Still.refl s).reframed

theorem Reframed.trans (h : Reframed win s s') (h' : Reframed win s' s'') : Reframed win s s'' := by
  refine ⟨h'.zorder.trans h.zorder, h'.focused.trans h.focused, h'.drag_win.trans h.drag_win, ?_,
    h'.last_click_win.trans h.last_click_win, h'.pressed_button.trans h.pressed_button,
    fun w => (h'.isOpen w).trans (h.isOpen w), fun w => (h'.minimized w).trans (h.minimized w),
    fun w hw => (h'.others w hw).trans (h.others w hw)⟩
  rcases h'.hover_win with heq | hnone
  · exact h.hover_win.imp heq.trans heq.trans
  · exact Or.inr hnone

theorem Reframed.ite {p : Prop} [Decidable p] (h : Reframed win s s') (h' : Reframed win s s'') :
    Reframed win s (if p then s' else s'') := by
  split
  · exact h
  · exact h'

theorem Reframed.set (s : Manager) (win : Nat) (hopen : (f (s.windows win)).isOpen = (s.windows win).isOpen)
    (hmin : (f (s.windows win)).minimized = (s.windows win).minimized) : Reframed win s (s.set win f) :=
  ⟨rfl, rfl, rfl, Or.inl rfl, rfl, rfl, field_set Window.isOpen s win hopen, field_set Window.minimized s win hmin,
    fun w hw => by rw [windows_set, if_neg hw]⟩

theorem Reframed.hover (s : Manager) (win : Nat) : Reframed win s (set_hover none none s) :=
  ⟨rfl, rfl, rfl, Or.inr rfl, rfl, rfl, fun _ => rfl, fun _ => rfl, fun _ _ => rfl⟩

theorem Reframed.snapped (s : Manager) (win : Nat) (r : Rect) (surface : Bool)
    (hopen : ∀ v, (f v).isOpen = v.isOpen) (hmin : ∀ v, (f v).minimized = v.minimized) :
    Reframed win s (set_hover none none
      ((set_frame win r.x r.y r.w r.h surface (save_restore_frame win s)).set win f)) :=
  ((still_save_restore_frame s win).trans (still_set_frame _ win r.x r.y r.w r.h surface)).reframed.trans
    ((Reframed.set _ win (hopen _) (hmin _)).trans (Reframed.hover _ win))

theorem reframed_maximize (s : Manager) (win : Nat) (surface : Bool) :
    Reframed win s (wm_maximize (some win) surface s) := by
  unfold wm_maximize
  dsimp only
  split
  · exact Reframed.refl win s
  · exact Reframed.snapped s win (snap_rect .maximize (save_restore_frame win s)) surface (fun _ => rfl) fun _ => rfl

theorem reframed_restore (s : Manager) (win : Nat) (surface : Bool) :
    Reframed win s (wm_restore (some win) surface s) := by
  unfold wm_restore
  dsimp only
  split
  · exact Reframed.refl win s
  · split
    · exact Reframed.refl win s
    · exact (Reframed.set s win rfl rfl).trans
          ((still_set_frame _ win _ _ _ _ surface).reframed.trans (Reframed.hover _ win))

theorem reframed_toggle_maximize (s : Manager) (win : Nat) (surface : Bool) :
    Reframed win s (wm_toggle_maximize (some win) surface s) := by
  unfold wm_toggle_maximize
  dsimp only
  split
  · exact Reframed.refl win s
  · split
    · exact reframed_restore s win surface
    · exact reframed_maximize s win surface

theorem reframed_snap (s : Manager) (win : Nat) (target : Snap) (surface : Bool) :
    Reframed win s (wm_snap (some win) target surface s) := by
  unfold wm_snap
  dsimp only
  split
  · exact Reframed.refl win s
  · split
    · exact reframed_restore s win surface
    · split
      · exact reframed_maximize s win surface
      · split
        · exact Reframed.refl win s
        · exact Reframed.snapped s win (snap_rect target (save_restore_frame win s)) surface (fun _ => rfl) fun _ => rfl

theorem Reframed.field (s : Manager) (win : Nat) (b : Bool) (x : Int) (t : Snap) :
    Reframed win s { s with drag_moved := b, drag_grab_x := x, pending_snap := t } :=
  ⟨rfl, rfl, rfl, Or.inl rfl, rfl, rfl, fun _ => rfl, fun _ => rfl, fun _ _ => rfl⟩

theorem reframed_unsnap_for_drag (s : Manager) (win : Nat) (x : Int) (surface : Bool) :
    Reframed win s (unsnap_for_drag win x surface s) := by
  have hset := Reframed.set s win (f := fun v => { v with maximized := false, snapped := .none }) rfl rfl
  unfold unsnap_for_drag
  dsimp only
  generalize s.set win (fun v => { v with maximized := false, snapped := .none }) = s₁ at hset ⊢
  have hframe := still_set_frame s₁ win (s₁.windows win).x (s₁.windows win).y (s₁.windows win).restore_w
    (s₁.windows win).restore_h surface
  generalize set_frame win _ _ _ _ surface s₁ = s₂ at hframe ⊢
  exact (hset.trans hframe.reframed).trans ((Reframed.field s₂ win s₂.drag_moved _ s₂.pending_snap).trans
    (still_move _ win _ _).reframed)

theorem reframed_drag_threshold (s : Manager) (win : Nat) (x y : Int) (surface : Bool) :
    Reframed win s (drag_threshold win x y surface s) := by
  have hmoved := Reframed.field s win true s.drag_grab_x s.pending_snap
  exact Reframed.ite (Reframed.ite (hmoved.trans (reframed_unsnap_for_drag _ win x surface)) hmoved)
      (Reframed.refl win s)

theorem reframed_drag_to (s : Manager) (win : Nat) (x y : Int) (surface : Bool) :
    Reframed win s (drag_to win x y surface s) := by
  have hmoved := reframed_drag_threshold s win x y surface
  refine Reframed.ite ?_ (still_drag_resize_to s win x y surface).reframed
  generalize drag_threshold win x y surface s = s₁ at hmoved ⊢
  have hmove : Reframed win s₁ _ := (still_move s₁ win (x - s₁.drag_grab_x) (y - s₁.drag_grab_y)).reframed
  dsimp only
  generalize wm_move win (x - s₁.drag_grab_x) (y - s₁.drag_grab_y) s₁ = s₂ at hmove ⊢
  exact Reframed.ite (hmoved.trans (hmove.trans (Reframed.field s₂ win s₂.drag_moved s₂.drag_grab_x _))) hmoved

/-! ## The invariant -/

/-- Everything the manager keeps a reference to is an open window. -/
structure Refs (s : Manager) : Prop where
  nodup : s.zorder.Nodup
  mem : ∀ w, w ∈ s.zorder ↔ (s.windows w).isOpen = true
  slot : ∀ w, (s.windows w).isOpen = true → w < WM_MAX_WINDOWS
  focused : s.focused = topmost_visible s
  drag : ∀ w, s.drag_win = some w → (s.windows w).isOpen = true
  hover : ∀ w, s.hover_win = some w → (s.windows w).isOpen = true
  click : ∀ w, s.last_click_win = some w → (s.windows w).isOpen = true

theorem visible_iff : s.visible w = true ↔ (s.windows w).isOpen = true ∧ (s.windows w).minimized = false := by
  unfold Manager.visible
  simp

theorem find?_congr_mem {l : List Nat} {p q : Nat → Bool} (h : ∀ a ∈ l, p a = q a) : l.find? p = l.find? q := by
  induction l with
  | nil => rfl
  | cons a l ih =>
    rw [List.find?_cons, List.find?_cons, h a List.mem_cons_self, ih fun b hb => h b (List.mem_cons_of_mem a hb)]

theorem topmost_visible_congr (hz : s'.zorder = s.zorder) (hv : ∀ w ∈ s.zorder, s'.visible w = s.visible w) :
    topmost_visible s' = topmost_visible s := by
  unfold topmost_visible
  rw [hz]
  exact find?_congr_mem fun w hw => hv w (List.mem_reverse.mp hw)

theorem topmost_visible_concat {z : List Nat} (hz : s.zorder = z ++ [win]) (hv : s.visible win = true) :
    topmost_visible s = some win := by
  unfold topmost_visible
  rw [hz, List.reverse_append, List.reverse_singleton, List.singleton_append, List.find?_cons, hv]

theorem find?_skip {l : List Nat} {p : Nat → Bool} (h : l.find? p ≠ some win) :
    l.find? (fun w => decide (w ≠ win) && p w) = l.find? p := by
  induction l with
  | nil => rfl
  | cons a l ih =>
    rw [List.find?_cons] at h ⊢
    rw [List.find?_cons]
    cases hp : p a with
    | false =>
      rw [hp] at h
      simpa using ih h
    | true =>
      rw [hp] at h
      have hne : a ≠ win := fun heq => h (heq ▸ rfl)
      simp [hne]

theorem topmost_visible_skip (hz : s'.zorder = s.zorder ∨ s'.zorder = s.zorder.filter (· ≠ win))
    (hv : ∀ w, s'.visible w = (decide (w ≠ win) && s.visible w)) (htop : topmost_visible s ≠ some win) :
    topmost_visible s' = topmost_visible s := by
  have hfind : ∀ l : List Nat, l.find? s'.visible = l.find? (fun w => decide (w ≠ win) && s.visible w) := fun l =>
    find?_congr_mem fun w _ => hv w
  unfold topmost_visible at htop ⊢
  rcases hz with hz | hz
  · rw [hz, hfind]
    exact find?_skip htop
  · rw [hz, ← List.filter_reverse, hfind, List.find?_filter]
    refine (find?_congr_mem fun w _ => ?_).trans (find?_skip htop)
    cases decide (w ≠ win) <;> simp

theorem Refs.length_lt (h : Refs s) (hw : win < WM_MAX_WINDOWS) :
    (s.zorder.filter (· ≠ win)).length < WM_MAX_WINDOWS := by
  have hsub : s.zorder.filter (· ≠ win) ⊆ (List.range WM_MAX_WINDOWS).erase win := fun w hmem => by
    obtain ⟨hz, hne⟩ := List.mem_filter.mp hmem
    have hne : w ≠ win := of_decide_eq_true hne
    exact (List.mem_erase_of_ne hne).mpr (List.mem_range.mpr (h.slot w ((h.mem w).mp hz)))
  have hlen := (List.Nodup.subperm (List.Nodup.filter _ h.nodup) hsub).length_le
  rw [List.length_erase_of_mem (List.mem_range.mpr hw), List.length_range] at hlen
  exact Nat.lt_of_le_of_lt hlen (by decide)

theorem zorder_raise_eq (h : Refs s) (hw : win < WM_MAX_WINDOWS) (hz : s'.zorder = s.zorder) :
    zorder_raise win s' = { s' with zorder := s.zorder.filter (· ≠ win) ++ [win] } := by
  unfold zorder_raise zorder_remove
  rw [hz, if_pos (h.length_lt hw)]

theorem Refs.raised (h : Refs s) (hslot : win < WM_MAX_WINDOWS) (hz : s'.zorder = s.zorder.filter (· ≠ win) ++ [win])
    (hf : s'.focused = some win) (hv : s'.visible win = true)
    (hopen : ∀ w, w ≠ win → (s'.windows w).isOpen = (s.windows w).isOpen) (hd : s'.drag_win = s.drag_win)
    (hh : s'.hover_win = s.hover_win) (hc : s'.last_click_win = s.last_click_win) : Refs s' := by
  have hwin := (visible_iff.mp hv).1
  have hkeep : ∀ w, (s.windows w).isOpen = true → (s'.windows w).isOpen = true := fun w hw => by
    by_cases heq : w = win
    · exact heq ▸ hwin
    · rw [hopen w heq, hw]
  refine ⟨?_, fun w => ?_, fun w hw => ?_, ?_, fun w hw => hkeep w (h.drag w (hd ▸ hw)),
    fun w hw => hkeep w (h.hover w (hh ▸ hw)), fun w hw => hkeep w (h.click w (hc ▸ hw))⟩
  · rw [hz]
    refine List.nodup_append.mpr ⟨h.nodup.filter _, by simp, fun a ha b hb heq => ?_⟩
    rw [List.mem_singleton.mp hb] at heq
    exact of_decide_eq_true (List.mem_filter.mp ha).2 heq
  · rw [hz, List.mem_append, List.mem_filter, List.mem_singleton]
    by_cases heq : w = win
    · simp [heq, hwin]
    · rw [hopen w heq, ← h.mem w]
      simp [heq]
  · by_cases heq : w = win
    · exact heq ▸ hslot
    · exact h.slot w (hopen w heq ▸ hw)
  · rw [hf, topmost_visible_concat hz hv]

theorem Refs.same (h : Refs s) (hz : s'.zorder = s.zorder) (hf : s'.focused = s.focused)
    (hopen : ∀ w, (s'.windows w).isOpen = (s.windows w).isOpen)
    (hmin : ∀ w, (s'.windows w).minimized = (s.windows w).minimized)
    (hd : ∀ w, s'.drag_win = some w → (s.windows w).isOpen = true)
    (hh : ∀ w, s'.hover_win = some w → (s.windows w).isOpen = true)
    (hc : ∀ w, s'.last_click_win = some w → (s.windows w).isOpen = true) : Refs s' := by
  refine ⟨hz ▸ h.nodup, fun w => by rw [hz, hopen w, h.mem w], fun w hw => h.slot w (hopen w ▸ hw), ?_,
    fun w hw => hopen w ▸ hd w hw, fun w hw => hopen w ▸ hh w hw, fun w hw => hopen w ▸ hc w hw⟩
  rw [hf, h.focused]
  refine (topmost_visible_congr hz fun w _ => ?_).symm
  unfold Manager.visible
  rw [hopen w, hmin w]

theorem Refs.refers (h : Refs s) (hz : s'.zorder = s.zorder) (hf : s'.focused = s.focused)
    (hw : s'.windows = s.windows) (hd : ∀ w, s'.drag_win = some w → (s.windows w).isOpen = true)
    (hh : ∀ w, s'.hover_win = some w → (s.windows w).isOpen = true)
    (hc : ∀ w, s'.last_click_win = some w → (s.windows w).isOpen = true) : Refs s' :=
  h.same hz hf (fun w => by rw [hw]) (fun w => by rw [hw]) hd hh hc

theorem Refs.reframed (h : Refs s) (hr : Reframed win s s') : Refs s' := by
  refine h.same hr.zorder hr.focused hr.isOpen hr.minimized (fun w hw => h.drag w (hr.drag_win ▸ hw)) (fun w hw => ?_)
    fun w hw => h.click w (hr.last_click_win ▸ hw)
  rcases hr.hover_win with heq | hnone
  · exact h.hover w (heq ▸ hw)
  · rw [hnone] at hw
    cases hw

theorem Refs.set_hover (h : Refs s) {v : Option Nat}
    (hv : ∀ w, v = some w → (s.windows w).isOpen = true) (b : Option Button) :
    Refs (set_hover v b s) :=
  h.refers rfl rfl rfl h.drag hv h.click

/-! ## Each call -/

theorem Refs.open (h : Refs s) (x y : Int) (surface : Bool) : Refs (wm_open x y surface s).1 := by
  unfold wm_open
  cases hfree : free_slot s with
  | none => exact h
  | some win =>
    dsimp only
    split
    · exact h
    · have hslot : win < WM_MAX_WINDOWS := List.mem_range.mp (List.mem_of_find?_eq_some hfree)
      rw [zorder_raise_eq h hslot]
      · refine h.raised hslot rfl rfl ?_ (fun w hw => ?_) rfl rfl rfl
        · rw [visible_iff]
          rw [windows_set, if_pos rfl]
          exact ⟨rfl, rfl⟩
        · dsimp only
          rw [windows_set, if_neg hw]
      · rfl

theorem Refs.unminimize (h : Refs s) (v : Option Nat) : Refs (wm_unminimize v s) := by
  unfold wm_unminimize
  cases v with
  | none => exact h
  | some win =>
    dsimp only
    split
    · exact h
    · next hcond =>
      have hwin : (s.windows win).isOpen = true := by
        cases hw : (s.windows win).isOpen <;> simp [hw] at hcond ⊢
      rw [zorder_raise_eq h (h.slot win hwin)]
      · refine h.raised (h.slot win hwin) rfl rfl ?_ (fun w hw => ?_) rfl rfl rfl
        · rw [visible_iff]
          rw [windows_set, if_pos rfl]
          exact ⟨hwin, rfl⟩
        · dsimp only
          rw [windows_set, if_neg hw]
      · rfl

theorem Refs.focus (h : Refs s) (v : Option Nat) : Refs (wm_focus v s) := by
  unfold wm_focus
  cases v with
  | none => exact h
  | some win =>
    dsimp only
    split
    · exact h
    · next hopen =>
      have hwin : (s.windows win).isOpen = true := by simpa using hopen
      have h₁ : Refs (if (s.windows win).minimized = true then wm_unminimize (some win) s else s) := by
        split
        · exact h.unminimize (some win)
        · exact h
      have hvis : (if (s.windows win).minimized = true then wm_unminimize (some win) s else s).visible win = true := by
        split
        · next hmin =>
          unfold wm_unminimize
          dsimp only
          rw [if_neg (by simp [hwin, hmin]), zorder_raise_eq h (h.slot win hwin)]
          · rw [visible_iff]
            rw [windows_set, if_pos rfl]
            exact ⟨hwin, rfl⟩
          · rfl
        · next hmin => exact visible_iff.mpr ⟨hwin, by simpa using hmin⟩
      generalize (if (s.windows win).minimized = true then wm_unminimize (some win) s else s) = s₁ at h₁ hvis ⊢
      split
      · exact h₁
      · rw [zorder_raise_eq h₁ (h.slot win hwin)]
        · exact h₁.raised (h.slot win hwin) rfl rfl hvis (fun _ _ => rfl) rfl rfl rfl
        · rfl

theorem Refs.refocus (h : Refs s) (hz : s'.zorder = s.zorder ∨ s'.zorder = s.zorder.filter (· ≠ win))
    (hw : s'.windows = (s.set win f).windows)
    (hf : (f (s.windows win)).isOpen = false ∨ (f (s.windows win)).minimized = true)
    (hfocus : s'.focused = if s.focused = some win then topmost_visible s' else s.focused) :
    s'.focused = topmost_visible s' := by
  rw [hfocus]
  split
  · rfl
  · next hne =>
    rw [h.focused] at hne ⊢
    refine (topmost_visible_skip hz (fun w => ?_) hne).symm
    unfold Manager.visible
    rw [hw, windows_set]
    by_cases heq : w = win
    · rw [if_pos heq]
      rcases hf with hf | hf <;> simp [heq, hf]
    · simp [heq]

theorem Refs.minimize (h : Refs s) (v : Option Nat) : Refs (wm_minimize v s) := by
  unfold wm_minimize
  cases v with
  | none => exact h
  | some win =>
    dsimp only
    split
    · exact h
    · have hopen := field_set Window.isOpen s win (f := fun v => { v with minimized := true }) rfl
      refine ⟨h.nodup, fun w => (h.mem w).trans (by rw [← hopen w]; rfl), fun w hw => h.slot w (hopen w ▸ hw),
        h.refocus (f := fun v => { v with minimized := true }) (Or.inl rfl) rfl (Or.inr rfl) rfl,
          fun w hw => (hopen w).trans (h.drag w hw), nofun,
        fun w hw => (hopen w).trans (h.click w hw)⟩

theorem Refs.close (h : Refs s) (v : Option Nat) : Refs (wm_close v s) := by
  unfold wm_close
  cases v with
  | none => exact h
  | some win =>
    dsimp only
    split
    · exact h
    · have hopen : ∀ w, ((s.set win fun v => { v with isOpen := false }).windows w).isOpen = true ↔
          w ≠ win ∧ (s.windows w).isOpen = true := fun w => by
        rw [windows_set]
        by_cases heq : w = win <;> simp [heq]
      -- a reference that is kept is not one to `win`
      have hkept : ∀ {r : Option Nat}, (∀ w, r = some w → (s.windows w).isOpen = true) →
          ∀ w, (if r = some win then none else r) = some w →
            ((s.set win fun v => { v with isOpen := false }).windows w).isOpen = true := fun {r} hr w hw => by
        split at hw
        · cases hw
        · next hne => exact (hopen w).mpr ⟨fun heq => hne (heq ▸ hw), hr w hw⟩
      refine ⟨h.nodup.filter _, fun w => ?_, fun w hw => h.slot w ((hopen w).mp hw).2,
        h.refocus (f := fun v => { v with isOpen := false }) (Or.inr rfl) rfl (Or.inl rfl) rfl,
          hkept h.drag, hkept h.hover, hkept h.click⟩
      refine List.mem_filter.trans (Iff.trans ?_ (hopen w).symm)
      show w ∈ s.zorder ∧ decide (w ≠ win) = true ↔ _
      rw [h.mem w, decide_eq_true_eq]
      exact and_comm

theorem Refs.maximize (h : Refs s) (v : Option Nat) (surface : Bool) : Refs (wm_maximize v surface s) := by
  cases v with
  | none => exact h
  | some win => exact h.reframed (reframed_maximize s win surface)

theorem Refs.restore (h : Refs s) (v : Option Nat) (surface : Bool) : Refs (wm_restore v surface s) := by
  cases v with
  | none => exact h
  | some win => exact h.reframed (reframed_restore s win surface)

theorem Refs.snap (h : Refs s) (v : Option Nat) (target : Snap) (surface : Bool) :
    Refs (wm_snap v target surface s) := by
  cases v with
  | none => exact h
  | some win => exact h.reframed (reframed_snap s win target surface)

theorem Refs.foldl {α : Type} {f : Manager → α → Manager} (hf : ∀ s a, Refs s → Refs (f s a)) :
    ∀ (l : List α) {s : Manager}, Refs s → Refs (l.foldl f s)
  | [], _, h => h
  | a :: l, _, h => Refs.foldl hf l (hf _ a h)

theorem Refs.toggleShowDesktop (h : Refs s) : Refs (wm_toggle_show_desktop s) := by
  unfold wm_toggle_show_desktop
  split
  · have hfold := Refs.foldl (fun s v (hs : Refs s) => hs.unminimize v) s.hidden_by_show_desktop h
    exact hfold.refers rfl rfl rfl hfold.drag hfold.hover hfold.click
  · refine Refs.foldl (fun s v (hs : Refs s) => hs.minimize v) _ ?_
    exact h.refers rfl rfl rfl h.drag h.hover h.click

theorem Refs.call (h : Refs s) (c : Call) : Refs (c.run s) := by
  cases c with
  | «open» w x surface => exact h.open w x surface
  | close win => exact h.close win
  | focus win => exact h.focus win
  | minimize win => exact h.minimize win
  | unminimize win => exact h.unminimize win
  | maximize win surface => exact h.maximize win surface
  | snap win target surface => exact h.snap win target surface
  | restore win surface => exact h.restore win surface
  | toggleShowDesktop => exact h.toggleShowDesktop

/-! ## Each event -/

/-- What raising a window, or bringing it back, leaves as it was. -/
structure Raised (s s' : Manager) : Prop where
  isOpen : ∀ w, (s'.windows w).isOpen = (s.windows w).isOpen
  minimized : ∀ w, (s'.windows w).minimized = true → (s.windows w).minimized = true
  maximized : ∀ w, (s'.windows w).maximized = (s.windows w).maximized
  pressed_button : s'.pressed_button = s.pressed_button

theorem Raised.refl (s : Manager) : Raised s s := ⟨fun _ => rfl, fun _ => id, fun _ => rfl, rfl⟩

theorem Raised.trans (h : Raised s s') (h' : Raised s' s'') : Raised s s'' :=
  ⟨fun w => (h'.isOpen w).trans (h.isOpen w), fun w hw => h.minimized w (h'.minimized w hw),
    fun w => (h'.maximized w).trans (h.maximized w), h'.pressed_button.trans h.pressed_button⟩

theorem raised_zorder_raise (s : Manager) (win : Nat) : Raised s (zorder_raise win s) := by
  unfold zorder_raise
  dsimp only
  split <;> exact ⟨fun _ => rfl, fun _ => id, fun _ => rfl, rfl⟩

theorem raised_unminimize (s : Manager) (v : Option Nat) : Raised s (wm_unminimize v s) := by
  unfold wm_unminimize
  cases v with
  | none => exact Raised.refl s
  | some win =>
    dsimp only
    split
    · exact Raised.refl s
    · have hset : Raised s (s.set win fun v => { v with minimized := false }) := by
        refine ⟨field_set Window.isOpen s win rfl, fun w hw => ?_, field_set Window.maximized s win rfl, rfl⟩
        rw [windows_set] at hw
        split at hw
        · cases hw
        · exact hw
      have hraise := hset.trans (raised_zorder_raise _ win)
      exact ⟨hraise.isOpen, hraise.minimized, hraise.maximized, hraise.pressed_button⟩

theorem raised_focus (s : Manager) (v : Option Nat) : Raised s (wm_focus v s) := by
  unfold wm_focus
  cases v with
  | none => exact Raised.refl s
  | some win =>
    dsimp only
    split
    · exact Raised.refl s
    · have h₁ : Raised s (if (s.windows win).minimized = true then wm_unminimize (some win) s else s) := by
        split
        · exact raised_unminimize s (some win)
        · exact Raised.refl s
      generalize (if (s.windows win).minimized = true then wm_unminimize (some win) s else s) = s₁ at h₁ ⊢
      split
      · exact h₁
      · have hraise := raised_zorder_raise { s₁ with focused := some win } win
        exact h₁.trans ⟨hraise.isOpen, hraise.minimized, hraise.maximized, hraise.pressed_button⟩

theorem hit_at_open {hit : Hit} (hhit : hit_at x y s = some (win, hit)) : (s.windows win).isOpen = true := by
  obtain ⟨w, hw, heq⟩ := Option.map_eq_some_iff.mp hhit
  obtain rfl : w = win := congrArg Prod.fst heq
  have hfound := List.find?_some hw
  rw [Bool.and_eq_true, visible_iff] at hfound
  exact hfound.1.1

theorem Refs.pointed (h : Refs s) (hopen : (s.windows win).isOpen = true) (b : Option Button) :
    Refs (Wm.set_hover (some win) b (wm_focus (some win) s)) ∧
      ((Wm.set_hover (some win) b (wm_focus (some win) s)).windows win).isOpen = true := by
  have hwin := ((raised_focus s (some win)).isOpen win).trans hopen
  refine ⟨(h.focus (some win)).set_hover (fun w hw => ?_) b, hwin⟩
  obtain rfl := Option.some.inj hw
  exact hwin

theorem Refs.press_left (h : Refs s) (ev : MouseEvent) (now : UInt32) (surface : Bool) {hit : Hit}
    (hopen : (s.windows win).isOpen = true) : Refs (Wm.press_left ev now surface win hit s).wm := by
  obtain ⟨h₁, hwin⟩ := h.pointed hopen hit.button
  unfold Wm.press_left
  generalize Wm.set_hover (some win) hit.button (wm_focus (some win) s) = s₁ at h₁ hwin ⊢
  have hself : ∀ w, some win = some w → (s₁.windows w).isOpen = true := fun w hw => Option.some.inj hw ▸ hwin
  have hnone : ∀ w, (none : Option Nat) = some w → (s₁.windows w).isOpen = true := nofun
  have hclick : ∀ {v : Option Nat}, (∀ w, v = some w → (s₁.windows w).isOpen = true) →
      ∀ now x y, Refs (Wm.click v now x y s₁) :=
    fun hv _ _ _ => h₁.refers rfl rfl rfl h₁.drag h₁.hover hv
  have hforget : Refs { s₁ with last_click_win := none } :=
    h₁.refers rfl rfl rfl h₁.drag h₁.hover hnone
  cases hit with
  | btn b => exact h₁.refers rfl rfl rfl h₁.drag h₁.hover h₁.click
  | edge e => exact h₁.refers rfl rfl rfl hself h₁.hover h₁.click
  | icon =>
    dsimp only
    split
    · exact hforget.close (some win)
    · exact hclick hself _ _ _
  | caption =>
    dsimp only
    split
    · exact hforget.reframed (reframed_toggle_maximize _ win surface)
    · exact h₁.refers rfl rfl rfl hself h₁.hover hself
  | none | client =>
    refine hclick (fun w hw => ?_) _ _ _
    split at hw
    · cases hw
    · exact hself w hw

theorem Refs.release_left (h : Refs s) (ev : MouseEvent) (surface : Bool) (v : Option (Nat × Hit)) :
    Refs (Wm.release_left ev surface v s).wm := by
  unfold Wm.release_left
  have h₁ : Refs { s with pressed_button := none } :=
    h.refers rfl rfl rfl h.drag h.hover h.click
  cases s.pressed_button with
  | none =>
    cases v with
    | none => exact h
    | some v => exact h
  | some b =>
    cases v with
    | none => exact h₁
    | some v =>
      dsimp only
      split
      · cases b with
        | min => exact h₁.minimize (some v.1)
        | max => exact h₁.reframed (reframed_toggle_maximize _ v.1 surface)
        | close => exact h₁.close (some v.1)
      · exact h₁

theorem Refs.drag_drop (h : Refs s) (win : Nat) (surface : Bool) : Refs (Wm.drag_drop win surface s) := by
  have h₁ : Refs { s with drag_mode := .none, drag_win := none, pending_snap := .none } :=
    h.refers rfl rfl rfl (fun w hw => by cases hw) h.hover h.click
  unfold Wm.drag_drop
  dsimp only
  split
  · exact h₁.snap (some win) _ surface
  · exact h₁

theorem Refs.event (h : Refs s) (ev : MouseEvent) (now : UInt32) (surface : Bool) :
    Refs (wm_handle_mouse ev now surface s).wm := by
  have hnone : Refs (Wm.set_hover none none s) := h.set_hover (fun w hw => by cases hw) none
  unfold wm_handle_mouse
  cases (if s.drag_mode ≠ .none then s.drag_win else none) with
  | some win =>
    dsimp only
    split
    · exact h.drag_drop win surface
    · exact h.reframed (reframed_drag_to s win ev.x ev.y surface)
  | none =>
    cases hhit : hit_at ev.x ev.y s with
    | none =>
      dsimp only
      split
      · exact h
      · split
        · exact hnone
        · split
          · exact h.release_left ev surface none
          · split
            · exact h
            · exact hnone
    | some v =>
      obtain ⟨win, hit⟩ := v
      have hopen := hit_at_open hhit
      dsimp only
      split
      · unfold press_right
        split <;> exact h.focus (some win)
      · split
        · exact h.press_left ev now surface hopen
        · split
          · exact h.release_left ev surface _
          · split
            · exact h
            · exact h.set_hover (fun w hw => Option.some.inj hw ▸ hopen) hit.button

end NovarisOS.Wm
