/-
NovarisOS.Wm.Captions — the caption buttons, and runs of the window manager.

`windows_referenced`: after any run the references are to open windows.
-/
import NovarisOS.Wm.References

namespace NovarisOS.Wm

variable {s s' : Manager} {win w : Nat} {surface : Bool} {x y : Int}

/-- What the button does happened to the window. -/
def Did (b : Button) (win : Nat) (s s' : Manager) : Prop :=
  match b with
  | .min => (s.windows win).minimized = false ∧ (s'.windows win).minimized = true
  | .max => (s.windows win).maximized = false ∧ (s'.windows win).maximized = true
  | .close => (s.windows win).isOpen = true ∧ (s'.windows win).isOpen = false

/-! ## What an event can do -/

theorem Raised.not_did (h : Raised s s') (b : Button) (w : Nat) : ¬ Did b w s s' := by
  cases b with
  | min =>
    rintro ⟨hno, hyes⟩
    rw [h.minimized w hyes] at hno
    cases hno
  | max =>
    rintro ⟨hno, hyes⟩
    rw [h.maximized w, hno] at hyes
    cases hyes
  | close =>
    rintro ⟨hyes, hno⟩
    rw [h.isOpen w, hyes] at hno
    cases hno

variable {b : Button} {ev : MouseEvent} {now : UInt32}

theorem Reframed.did (h : Reframed win s s') (hdid : Did b w s s') : b = .max ∧ w = win := by
  cases b with
  | min =>
    obtain ⟨hno, hyes⟩ := hdid
    rw [h.minimized w, hno] at hyes
    cases hyes
  | max =>
    obtain ⟨hno, hyes⟩ := hdid
    refine ⟨rfl, ?_⟩
    by_contra hne
    rw [h.others w hne, hno] at hyes
    cases hyes
  | close =>
    obtain ⟨hyes, hno⟩ := hdid
    rw [h.isOpen w, hyes] at hno
    cases hno

theorem windows_minimize (s : Manager) (win : Nat) : (wm_minimize (some win) s).windows = s.windows ∨
    (wm_minimize (some win) s).windows = (s.set win fun v => { v with minimized := true }).windows := by
  unfold wm_minimize
  dsimp only
  split
  · exact Or.inl rfl
  · exact Or.inr rfl

theorem windows_close (s : Manager) (win : Nat) : (wm_close (some win) s).windows = s.windows ∨
    (wm_close (some win) s).windows = (s.set win fun v => { v with isOpen := false }).windows := by
  unfold wm_close
  dsimp only
  split
  · exact Or.inl rfl
  · exact Or.inr rfl

/-- The flag that the button changes. -/
def Button.flag : Button → Window → Bool
  | .min, v => v.minimized
  | .max, v => v.maximized
  | .close, v => v.isOpen

theorem Did.changes (h : Did b w s s') : b.flag (s.windows w) ≠ b.flag (s'.windows w) := by
  cases b <;> simp [Button.flag, h.1, h.2]

/-- A call that changes one flag of one window does what one button does. -/
theorem Did.of_set {c : Button} {f : Window → Window} (hdid : Did b w s s')
    (h : s'.windows = s.windows ∨ s'.windows = (s.set win f).windows)
    (hf : ∀ b v, b ≠ c → b.flag (f v) = b.flag v) : b = c ∧ w = win := by
  have hne := hdid.changes
  rcases h with h | h
  · rw [h] at hne
    exact absurd rfl hne
  · rw [h, windows_set] at hne
    by_cases hw : w = win
    · refine ⟨?_, hw⟩
      by_contra hb
      rw [if_pos hw, hf b _ hb, hw] at hne
      exact absurd rfl hne
    · rw [if_neg hw] at hne
      exact absurd rfl hne

theorem did_minimize (hdid : Did b w s (wm_minimize (some win) s)) : b = .min ∧ w = win :=
  hdid.of_set (windows_minimize s win) fun b v hb => by cases b <;> first | rfl | exact absurd rfl hb

theorem did_close (hdid : Did b w s (wm_close (some win) s)) : b = .close ∧ w = win :=
  hdid.of_set (windows_close s win) fun b v hb => by cases b <;> first | rfl | exact absurd rfl hb

theorem snap_maximized {target : Snap} (hsome : target ≠ .none) (hmax : target ≠ .maximize)
    (h : ((wm_snap (some win) target surface s).windows win).maximized = true) : (s.windows win).maximized = true := by
  unfold wm_snap at h
  dsimp only at h
  split at h
  · exact h
  · split at h
    · exact h
    · generalize set_frame win _ _ _ _ surface _ = s₁ at h
      have hset : ((s₁.set win fun v => { v with maximized := false, snapped := target }).windows
          win).maximized = true := h
      rw [windows_set, if_pos rfl] at hset
      cases hset

theorem did_drop (hmax : s.pending_snap ≠ .maximize) : ¬ Did b w s (drag_drop win surface s) := by
  intro hdid
  unfold drag_drop at hdid
  dsimp only at hdid
  split at hdid
  · next hsome =>
    have hdid' : Did b w { s with drag_mode := .none, drag_win := none, pending_snap := .none } _ := hdid
    obtain ⟨rfl, rfl⟩ := (reframed_snap _ win s.pending_snap surface).did hdid'
    have := snap_maximized hsome hmax hdid.2
    have hno := hdid.1
    rw [this] at hno
    cases hno
  · exact (Raised.refl s).not_did b w hdid

theorem did_release {v : Option (Nat × Hit)} (hdid : Did b w s (release_left ev surface v s).wm) :
    s.pressed_button = some b ∧ v = some (w, .btn b) := by
  unfold release_left at hdid
  cases hp : s.pressed_button with
  | none =>
    rw [hp] at hdid
    cases v <;> exact absurd hdid ((Raised.refl s).not_did b w)
  | some p =>
    rw [hp] at hdid
    cases v with
    | none => exact absurd hdid ((Raised.refl s).not_did b w)
    | some v =>
      obtain ⟨win, hit⟩ := v
      dsimp only at hdid
      split at hdid
      · next hhit =>
        subst hhit
        have hsame : ∀ s', Did b w s s' → Did b w { s with pressed_button := none } s' := fun _ => id
        cases p with
        | min =>
          obtain ⟨rfl, rfl⟩ := did_minimize (hsame _ hdid)
          exact ⟨rfl, rfl⟩
        | max =>
          obtain ⟨rfl, rfl⟩ := (reframed_toggle_maximize _ win surface).did (hsame _ hdid)
          exact ⟨rfl, rfl⟩
        | close =>
          obtain ⟨rfl, rfl⟩ := did_close (hsame _ hdid)
          exact ⟨rfl, rfl⟩
      · exact absurd hdid ((Raised.refl s).not_did b w)

theorem did_event (hreleased : has ev.released MOUSE_BUTTON_LEFT = true)
    (hpressed : has ev.pressed MOUSE_BUTTON_LEFT = false)
    (hmax : s.drag_mode ≠ .none → s.drag_win ≠ none → s.pending_snap ≠ .maximize)
    (hdid : Did b w s (wm_handle_mouse ev now surface s).wm) :
    s.pressed_button = some b ∧ hit_at ev.x ev.y s = some (w, .btn b) := by
  have hidle := (Raised.refl s).not_did b w
  unfold wm_handle_mouse at hdid
  cases hdrag : (if s.drag_mode ≠ .none then s.drag_win else none) with
  | some win =>
    rw [hdrag] at hdid
    dsimp only at hdid
    rw [if_pos hreleased] at hdid
    split at hdrag
    · next hmode => exact absurd hdid (did_drop (hmax hmode (by rw [hdrag]; nofun)))
    · cases hdrag
  | none =>
    rw [hdrag] at hdid
    dsimp only at hdid
    rw [hreleased, hpressed] at hdid
    split at hdid
    · split at hdid
      · exact absurd hdid hidle
      · next win hit _ =>
        unfold press_right at hdid
        have hfocus := (raised_focus s (some win)).not_did b w
        split at hdid
        · exact absurd hdid hfocus
        · exact absurd hdid hfocus
    · exact did_release hdid

/-! ## The button that is down -/

theorem pressed_button_call (s : Manager) (c : Call) : (c.run s).pressed_button = s.pressed_button := by
  have hfold : ∀ {f : Manager → Option Nat → Manager}, (∀ s v, (f s v).pressed_button = s.pressed_button) →
      ∀ (l : List (Option Nat)) (s : Manager), (l.foldl f s).pressed_button = s.pressed_button := by
    intro f hf l
    induction l with
    | nil => exact fun _ => rfl
    | cons v l ih => exact fun s => (ih _).trans (hf s v)
  have hmin : ∀ (s : Manager) (v : Option Nat), (wm_minimize v s).pressed_button = s.pressed_button := by
    intro s v
    unfold wm_minimize
    cases v with
    | none => rfl
    | some win =>
      dsimp only
      split <;> rfl
  cases c with
  | «open» x y surface =>
    show (wm_open x y surface s).1.pressed_button = _
    unfold wm_open
    cases free_slot s with
    | none => rfl
    | some win =>
      dsimp only
      split
      · rfl
      · exact (raised_zorder_raise _ win).pressed_button
  | close v =>
    show (wm_close v s).pressed_button = _
    unfold wm_close
    cases v with
    | none => rfl
    | some win =>
      dsimp only
      split <;> rfl
  | focus v => exact (raised_focus s v).pressed_button
  | minimize v => exact hmin s v
  | unminimize v => exact (raised_unminimize s v).pressed_button
  | maximize v surface =>
    cases v with
    | none => rfl
    | some win => exact (reframed_maximize s win surface).pressed_button
  | snap v target surface =>
    cases v with
    | none => rfl
    | some win => exact (reframed_snap s win target surface).pressed_button
  | restore v surface =>
    cases v with
    | none => rfl
    | some win => exact (reframed_restore s win surface).pressed_button
  | toggleShowDesktop =>
    show (wm_toggle_show_desktop s).pressed_button = _
    unfold wm_toggle_show_desktop
    split
    · exact hfold (fun s v => (raised_unminimize s v).pressed_button) _ s
    · exact hfold hmin _ _

theorem pressed_button_press {hit : Hit}
    (h : (press_left ev now surface win hit s).wm.pressed_button = some b) :
    s.pressed_button = some b ∨ hit = .btn b := by
  have hfocus : (set_hover (some win) hit.button (wm_focus (some win) s)).pressed_button = s.pressed_button :=
    (raised_focus s (some win)).pressed_button
  unfold press_left at h
  generalize set_hover (some win) hit.button (wm_focus (some win) s) = s₁ at h hfocus
  rw [← hfocus]
  cases hit with
  | btn c => exact Or.inr (congrArg Hit.btn (Option.some.inj h))
  | edge e => exact Or.inl h
  | icon =>
    dsimp only at h
    split at h
    · exact Or.inl ((pressed_button_call { s₁ with last_click_win := none } (.close (some win))).symm.trans h)
    · exact Or.inl h
  | caption =>
    dsimp only at h
    split at h
    · exact Or.inl ((reframed_toggle_maximize
          { s₁ with last_click_win := none } win surface).pressed_button.symm.trans h)
    · exact Or.inl h
  | none | client => exact Or.inl h

theorem pressed_button_release {v : Option (Nat × Hit)} : (release_left ev surface v s).wm.pressed_button = none := by
  unfold release_left
  cases hp : s.pressed_button with
  | none => cases v <;> exact hp
  | some p =>
    cases v with
    | none => rfl
    | some v =>
      dsimp only
      split
      · cases p with
        | min => exact pressed_button_call _ (.minimize (some v.1))
        | max => exact (reframed_toggle_maximize _ v.1 surface).pressed_button
        | close => exact pressed_button_call _ (.close (some v.1))
      · rfl

theorem pressed_button_event
    (h : (wm_handle_mouse ev now surface s).wm.pressed_button = some b) :
    s.pressed_button = some b ∨ has ev.pressed MOUSE_BUTTON_LEFT = true ∧
      ∃ win, hit_at ev.x ev.y s = some (win, .btn b) := by
  unfold wm_handle_mouse at h
  cases hdrag : (if s.drag_mode ≠ .none then s.drag_win else none) with
  | some win =>
    rw [hdrag] at h
    dsimp only at h
    split at h
    · have hdrop : (drag_drop win surface s).pressed_button = s.pressed_button := by
        unfold drag_drop
        dsimp only
        split
        · exact (reframed_snap _ win s.pending_snap surface).pressed_button
        · rfl
      exact Or.inl (hdrop.symm.trans h)
    · exact Or.inl ((reframed_drag_to s win ev.x ev.y surface).pressed_button.symm.trans h)
  | none =>
    rw [hdrag] at h
    cases hhit : hit_at ev.x ev.y s with
    | none =>
      rw [hhit] at h
      dsimp only at h
      split at h
      · exact Or.inl h
      · split at h
        · exact Or.inl h
        · split at h
          · rw [pressed_button_release] at h
            cases h
          · split at h
            · exact Or.inl h
            · exact Or.inl h
    | some v =>
      obtain ⟨win, hit⟩ := v
      rw [hhit] at h
      dsimp only at h
      split at h
      · unfold press_right at h
        have hfocus := (raised_focus s (some win)).pressed_button
        split at h
        · exact Or.inl (hfocus.symm.trans h)
        · exact Or.inl (hfocus.symm.trans h)
      · split at h
        · next hpressed =>
          rcases pressed_button_press h with h | rfl
          · exact Or.inl h
          · exact Or.inr ⟨hpressed, win, rfl⟩
        · split at h
          · rw [pressed_button_release] at h
            cases h
          · split at h
            · exact Or.inl h
            · exact Or.inl h

/-! ## Runs -/

/-- The machine of the calls and events. -/
def desks : Machine Desk Act Unit where
  step s a := (s.step a, ())

/-- No window is opened in the slot of the one whose button is down. -/
def Call.Clear (s : Desk) : Call → Prop
  | .open .. => s.wm.pressed_button ≠ none → ∀ p ∈ s.press, free_slot s.wm ≠ some p.win
  | _ => True

/-- The left button goes down once before it comes up, not over the same button
of another window, and not at the end of a drag that maximizes. -/
structure MouseEvent.Clear (s : Desk) (ev : MouseEvent) : Prop where
  press : has ev.pressed MOUSE_BUTTON_LEFT = true → s.wm.pressed_button = none ∧
    has ev.released MOUSE_BUTTON_LEFT = false
  drop : has ev.released MOUSE_BUTTON_LEFT = true → s.wm.drag_mode ≠ .none → s.wm.drag_win ≠ none →
    s.wm.pending_snap ≠ .maximize
  release : has ev.released MOUSE_BUTTON_LEFT = true → ∀ b ∈ s.wm.pressed_button, ∀ p ∈ s.press,
    ∀ v ∈ hit_at ev.x ev.y s.wm, v.2 = .btn b → v.1 = p.win

/-- An act keeps to these conditions, and so do the calls its callback makes. -/
def Act.Clear (s : Desk) : Act → Prop
  | .call c => c.Clear s
  | .mouse ev now surface reaction => ev.Clear s ∧
      ((wm_handle_mouse ev now surface s.wm).delivered.isSome →
        calls.Guarded (fun s c => c.Clear s) (s.event ev now surface) reaction)

/-- The button that is down is the one of the last press, and its window is
still the one that was pressed. -/
def Desk.Down (s : Desk) : Prop :=
  ∀ b, s.wm.pressed_button = some b → ∃ p, s.press = some p ∧ p.button = b ∧ s.births p.win = p.birth

theorem Desk.Down.call {s : Desk} (h : s.Down) {c : Call} (hc : c.Clear s) : (s.call c).Down := by
  intro b hb
  have hb' : s.wm.pressed_button = some b := (pressed_button_call s.wm c).symm.trans hb
  obtain ⟨p, hp, hbutton, hbirth⟩ := h b hb'
  refine ⟨p, hp, hbutton, ?_⟩
  cases c with
  | «open» x y surface =>
    simp only [Desk.call]
    cases hopened : (wm_open x y surface s.wm).2 with
    | none => exact hbirth
    | some win =>
      have hfree : free_slot s.wm = some win := by
        unfold wm_open at hopened
        cases hfree : free_slot s.wm with
        | none =>
          rw [hfree] at hopened
          cases hopened
        | some v =>
          rw [hfree] at hopened
          dsimp only at hopened
          split at hopened
          · cases hopened
          · exact hopened
      have hne : p.win ≠ win := fun heq => hc (by rw [hb']; exact Option.some_ne_none b) p hp (heq ▸ hfree)
      exact (Function.update_of_ne hne _ _).trans hbirth
  | _ => exact hbirth

theorem Desk.Down.event {s : Desk} (h : s.Down) {surface : Bool} (hev : ev.Clear s) :
    (s.event ev now surface).Down := by
  intro b hb
  rcases pressed_button_event hb with hold | ⟨hpressed, win, hhit⟩
  · have hno : has ev.pressed MOUSE_BUTTON_LEFT = false := by
      by_contra hpressed
      have := (hev.press (by simpa using hpressed)).1
      rw [hold] at this
      cases this
    obtain ⟨p, hp, hrest⟩ := h b hold
    exact ⟨p, by rw [← hp]; show (if _ then _ else _) = _; rw [hno]; rfl, hrest⟩
  · refine ⟨⟨win, s.births win, b⟩, ?_, rfl, rfl⟩
    show (if _ then _ else _) = _
    rw [hpressed, if_pos rfl, Desk.pressAt, hhit]

theorem Desk.Down.step {s : Desk} (h : s.Down) {a : Act} (ha : a.Clear s) : (s.step a).Down := by
  cases a with
  | call c => exact h.call ha
  | mouse ev now surface reaction =>
    obtain ⟨hev, hreact⟩ := ha
    unfold Desk.step
    dsimp only
    cases hd : (wm_handle_mouse ev now surface s.wm).delivered with
    | none => exact h.event hev
    | some d =>
      have hcall : ∀ (s : Desk) (c : Call), s.Down → c.Clear s → (s.call c).Down := fun _ _ hs hc => hs.call hc
      exact calls.invariant_of_step hcall reaction _ (h.event hev) (hreact (by rw [hd]; rfl))

/-- The references of a desk are to open windows. -/
def Desk.Sound (s : Desk) : Prop := Refs s.wm

theorem Desk.Sound.step {s : Desk} (h : s.Sound) (a : Act) : (s.step a).Sound := by
  cases a with
  | call c => exact Refs.call h c
  | mouse ev now surface reaction =>
    have hevent : (s.event ev now surface).Sound := Refs.event h ev now surface
    have hcall : ∀ (s : Desk) (c : Call), s.Sound → True → (s.call c).Sound := fun _ c hs _ => Refs.call hs c
    unfold Desk.step
    dsimp only
    cases (wm_handle_mouse ev now surface s.wm).delivered with
    | none => exact hevent
    | some d =>
      show (calls.run (s.event ev now surface) reaction).Sound
      exact calls.invariant_of_step hcall reaction _ hevent (calls.guarded_true _ _)

/-- The references of the manager are to open windows: `zorder` has each of
them once and nothing else, the focus is on the topmost visible one, and what
the pointer drags, is over or clicked last is open. -/
structure Referenced (s : Manager) : Prop where
  slot : ∀ w, (s.windows w).isOpen = true → w < WM_MAX_WINDOWS
  order : s.zorder.Nodup ∧ ∀ w, w ∈ s.zorder ↔ (s.windows w).isOpen = true
  zcount : s.zorder.length = ((List.range WM_MAX_WINDOWS).filter fun w => (s.windows w).isOpen).length
  focused : s.focused = topmost_visible s
  visible : ∀ w, s.focused = some w → (s.windows w).isOpen = true ∧ (s.windows w).minimized = false
  others : ∀ w, s.drag_win = some w ∨ s.hover_win = some w ∨ s.last_click_win = some w → (s.windows w).isOpen = true

theorem Refs.referenced (h : Refs s) : Referenced s := by
  refine ⟨h.slot, ⟨h.nodup, h.mem⟩, ?_, h.focused, fun w hw => ?_, fun w hw => ?_⟩
  · refine ((List.perm_ext_iff_of_nodup h.nodup (List.Nodup.filter _ List.nodup_range)).mpr fun w => ?_).length_eq
    rw [h.mem w, List.mem_filter, List.mem_range]
    exact ⟨fun hopen => ⟨h.slot w hopen, hopen⟩, fun hopen => hopen.2⟩
  · rw [h.focused] at hw
    exact visible_iff.mp (List.find?_some hw)
  · rcases hw with hw | hw | hw
    · exact h.drag w hw
    · exact h.hover w hw
    · exact h.click w hw

/-- A press of the left button on a caption button did what the release does now. -/
def OnlyIfPressed (s : Desk) (ev : MouseEvent) (now : UInt32) (surface : Bool) : Prop :=
  has ev.released MOUSE_BUTTON_LEFT = true → ∀ b win, Did b win s.wm (wm_handle_mouse ev now surface s.wm).wm →
    s.press = some ⟨win, s.births win, b⟩

/-- The manager right after `wm_init`. -/
def booted (w h top bottom : Int) : Desk := ⟨wm_init w h top bottom {}, fun _ => 0, none⟩

theorem sound_booted (w h top bottom : Int) : (booted w h top bottom).Sound := by
  have hclosed : ∀ v, ((booted w h top bottom).wm.windows v).isOpen = false := fun v => by
    show (if v < WM_MAX_WINDOWS then _ else _ : Window).isOpen = false
    split <;> rfl
  refine ⟨List.nodup_nil, fun v => ?_, fun v hv => ?_, rfl, nofun, nofun, nofun⟩
  · rw [hclosed]
    exact ⟨nofun, nofun⟩
  · rw [hclosed] at hv
    cases hv

/-- **Whatever is called and whatever the mouse does**: references are to open
windows; and a button acts on the window it was pressed on, as long as the
presses and releases keep to the conditions. -/
theorem windows_referenced (w h top bottom : Int) (as : List Act) :
    Referenced (desks.run (booted w h top bottom) as).wm ∧
      (desks.Guarded (fun s a => a.Clear s) (booted w h top bottom) as →
        ∀ (ev : MouseEvent) (now : UInt32) (surface : Bool), ev.Clear (desks.run (booted w h top bottom) as) →
          OnlyIfPressed (desks.run (booted w h top bottom) as) ev now surface) := by
  have hkeep : ∀ (s : Desk) (a : Act), s.Sound → True → (s.step a).Sound := fun _ a hs _ => hs.step a
  have hrefs := desks.invariant_of_step hkeep as _ (sound_booted w h top bottom) (desks.guarded_true _ _)
  refine ⟨Refs.referenced hrefs, fun hclear ev now surface hev hreleased b win hdid => ?_⟩
  have hstart : (booted w h top bottom).Down := nofun
  have hkeepDown : ∀ (s : Desk) (a : Act), s.Down → a.Clear s → (s.step a).Down := fun _ _ hs ha => hs.step ha
  have hdown := desks.invariant_of_step hkeepDown as _ hstart hclear
  generalize desks.run (booted w h top bottom) as = s at hev hdid hdown ⊢
  have hpressed : has ev.pressed MOUSE_BUTTON_LEFT = false := by
    by_contra hpressed
    have := (hev.press (by simpa using hpressed)).2
    rw [hreleased] at this
    cases this
  obtain ⟨hbutton, hhit⟩ := did_event hreleased hpressed (hev.drop hreleased) hdid
  obtain ⟨p, hp, rfl, hbirth⟩ := hdown b hbutton
  have hwin : win = p.win := hev.release hreleased p.button hbutton p hp (win, .btn p.button) hhit rfl
  rw [hp, hwin, hbirth]

/-- Two windows, the second over the first, and a press of the first one's close
button, which brings that one to the front. -/
def pressedClose : List Act :=
  [.call (.open 500 340 true), .call (.open 500 340 true),
    .mouse { x := 795, y := 42, buttons := 1, pressed := 1 } 0 true []]

theorem windows_referenced_small :
    Referenced (desks.run (booted 1280 800 0 48) pressedClose).wm ∧
      OnlyIfPressed (desks.run (booted 1280 800 0 48) pressedClose) { x := 795, y := 42, released := 1 } 3 true := by
  obtain ⟨hrefs, hclear⟩ := windows_referenced 1280 800 0 48 pressedClose
  refine ⟨hrefs, hclear ⟨?_, ?_, ⟨⟨?_, ?_, ?_⟩, fun _ => trivial⟩, trivial⟩ _ 3 true ⟨?_, ?_, ?_⟩⟩
  · show _ ≠ none → ∀ p ∈ _, _ ≠ _
    decide
  · show _ ≠ none → ∀ p ∈ _, _ ≠ _
    decide
  all_goals decide

/-- The release is over the close button of the second window, and closes that one. -/
theorem windows_other_closed :
    ¬ ∀ (w h top bottom : Int) (as : List Act) (ev : MouseEvent) (now : UInt32) (surface : Bool),
    has ev.pressed MOUSE_BUTTON_LEFT = false → OnlyIfPressed (desks.run (booted w h top bottom) as) ev now surface := by
  intro hall
  have hpress := hall 1280 800 0 48 pressedClose { x := 840, y := 66, released := 1 } 3 true
      (by decide) (by decide) .close 1
    (show _ ∧ _ by decide)
  revert hpress
  decide

end NovarisOS.Wm
