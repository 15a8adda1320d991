/-
NovarisOS.Input64.Reports — what is read of a report.

A REPORT is all the events of one key byte or of one mouse packet, and a
SYN_REPORT behind them. A `World` is the state of the drivers together with
what has happened so far: what was read from each device, which reports were
fed, and which keys are down.
-/
import Mathlib.Data.List.Induction
import NovarisOS.Input64.Queues
import NovarisOS.Lib.Machine

namespace NovarisOS.Input64

/-! ## The world -/

/-- A call from outside. -/
inductive Op where
  | scancode (byte : Nat)
  | mouseByte (byte : Nat)
  | read (device : Int) (buf len : Nat)
  deriving DecidableEq, Repr

/-- `held extended code`: the key with this code, behind a prefix or not, is
down. `fed` are the reports without the SYN_REPORT, and
whether there was room when they came. -/
structure World where
  input : Input
  delivered : Device → List Event
  fed : Device → List (List Body × Bool)
  held : Bool → Nat → Bool

/-- The events of a mouse packet, if it makes a report. -/
def packetEvents (s : Input) : Option (List Body) :=
  let flags := s.mousePacket 0
  let dx := movement (s.mousePacket 1) flags 0x10
  let dy := movement (s.mousePacket 2) flags 0x20
  let now := flags &&& 0x07
  let changed := now ^^^ s.mouseButtons
  if changed ≠ 0 ∨ dx ≠ 0 ∨ dy ≠ 0 then
    some ((if changed &&& 0x01 ≠ 0 then [⟨EV64_KEY, BTN64_LEFT, if now &&& 0x01 ≠ 0 then 1 else 0⟩] else []) ++
      (if changed &&& 0x02 ≠ 0 then [⟨EV64_KEY, BTN64_RIGHT, if now &&& 0x02 ≠ 0 then 1 else 0⟩] else []) ++
      (if changed &&& 0x04 ≠ 0 then [⟨EV64_KEY, BTN64_MIDDLE, if now &&& 0x04 ≠ 0 then 1 else 0⟩] else []) ++
      (if dx ≠ 0 then [⟨EV64_REL, REL64_X, dx⟩] else []) ++ (if dy ≠ 0 then [⟨EV64_REL, REL64_Y, -dy⟩] else []))
  else none

/-- The state in which the third byte of a packet is looked at. -/
def Input.withByte (s : Input) (byte : Nat) : Input :=
  { s with mousePacket := Function.update s.mousePacket s.mouseIndex byte, mouseIndex := 0 }

/-- The report that a call feeds, and to which device. -/
def reportOf (s : Input) : Op → Option (Device × List Body)
  | .scancode byte =>
    if byte = 0xE0 then none
    else some (.kbd, [⟨EV64_KEY, byte % 0x80, if 0x80 ≤ byte then 0 else 1⟩])
  | .mouseByte byte =>
    if s.mouseIndex = 0 ∧ !firstByte byte ∨ s.mouseIndex + 1 < 3 then none
    else (packetEvents (s.withByte byte)).map (Device.mouse, ·)
  | .read .. => none

/-- What the drivers do with a call, and what is read. -/
def react (s : Input) : Op → List Event × Input
  | .scancode byte => ([], input64FeedScancode s byte)
  | .mouseByte byte => ([], input64FeedMouseByte s byte)
  | .read device buf len => input64Read s device buf len

/-- The keys that are down after a call. -/
def World.heldAfter (w : World) : Op → Bool → Nat → Bool
  | .scancode byte =>
    if byte = 0xE0 then w.held
    else fun ext code =>
      if ext = w.input.kbdExtended ∧ code = byte % 0x80 then decide (byte < 0x80) else w.held ext code
  | _ => w.held

def World.step (w : World) (op : Op) : World where
  input := (react w.input op).2
  delivered := fun dev =>
    match op with
    | .read device _ _ => if deviceOf device = some dev then w.delivered dev ++ (react w.input op).1 else w.delivered dev
    | _ => w.delivered dev
  fed := fun dev =>
    match reportOf w.input op with
    | some (d, r) => if dev = d then w.fed dev ++ [(r, decide (0 < w.input.room dev))] else w.fed dev
    | none => w.fed dev
  held := w.heldAfter op

/-- The drivers, with the rest of the world. -/
def machine : Machine World Op Unit where
  step := fun w op => (w.step op, ())

/-- After `input64_reset`, with no key down. -/
def World.start (s : Input) : World where
  input := input64Reset s
  delivered := fun _ => []
  fed := fun _ => []
  held := fun _ _ => false

/-! ## Reports and modifiers -/

/-- A report as it is to be delivered. -/
def complete (r : List Body) : List Body := r ++ [syn]

/-- What was delivered from a device, and what is still to be. -/
def World.sequence (w : World) (dev : Device) : List Body :=
  (w.delivered dev).map (·.toBody) ++ w.input.bodies dev

/-- Nothing but complete reports of those that were fed, in their order, and
all of them but some that found the queue full. -/
def Whole (w : World) : Prop :=
  ∀ dev, ∃ kept : List (List Body × Bool), kept.Sublist (w.fed dev) ∧ ((w.fed dev).filter (·.2)).Sublist kept ∧
    w.sequence dev = (kept.map (·.1)).flatMap complete

/-- The bit of a modifier is set exactly when a key that produces it is down. -/
def Truthful (w : World) : Prop :=
  ∀ m : Modifier, w.input.modifiers.testBit m.bit = true ↔
    ∃ ext code, modifierOf code = some m ∧ w.held ext code = true

/-- There is room for the whole report, or for nothing of it. -/
def Fits (w : World) (op : Op) : Prop :=
  ∀ dev r, reportOf w.input op = some (dev, r) → w.input.room dev = 0 ∨ r.length + 1 ≤ w.input.room dev

/-- A modifier key is let go of only when no other key of its modifier is down. -/
def LastKey (w : World) : Op → Prop
  | .scancode byte => byte ≠ 0xE0 → 0x80 ≤ byte → ∀ m, modifierOf (byte % 0x80) = some m →
      ∀ ext code, modifierOf code = some m → w.held ext code = true →
        ext = w.input.kbdExtended ∧ code = byte % 0x80
  | _ => True

/-! ## What a call does -/

section Step

variable {s : Input} {w : World} {op : Op}

/-- What some pushes to a device have changed. -/
structure Pushed (s s' : Input) (dev : Device) (l : List Body) : Prop where
  sound : s'.Sound
  modifiers : s'.modifiers = s.modifiers
  mouseIndex : s'.mouseIndex = s.mouseIndex
  bodies : s'.bodies dev = s.bodies dev ++ l.take (s.room dev)
  room : s'.room dev = s.room dev - l.length
  others : ∀ d ≠ dev, s'.bodies d = s.bodies d

theorem Pushed.refl (h : s.Sound) (dev : Device) : Pushed s s dev [] := ⟨h, rfl, rfl, by simp, rfl, fun _ _ => rfl⟩

theorem Pushed.trans {s₁ s₂ s₃ : Input} {dev : Device} {l l' : List Body} (h : Pushed s₁ s₂ dev l)
    (h' : Pushed s₂ s₃ dev l') : Pushed s₁ s₃ dev (l ++ l') where
  sound := h'.sound
  modifiers := h'.modifiers.trans h.modifiers
  mouseIndex := h'.mouseIndex.trans h.mouseIndex
  bodies := by rw [h'.bodies, h.bodies, h.room, List.append_assoc, List.take_append]
  room := by rw [h'.room, h.room, List.length_append, Nat.sub_sub]
  others := fun d hd => (h'.others d hd).trans (h.others d hd)

theorem Pushed.push (h : s.Sound) (dev : Device) (b : Body) : Pushed s (push s dev b) dev [b] where
  sound := push_sound h dev b
  modifiers := by
    unfold Input64.push
    simp only
    split <;> rfl
  mouseIndex := by
    unfold Input64.push
    simp only
    split <;> rfl
  bodies := bodies_push h dev b
  room := room_push h dev b
  others := fun d hd => bodies_push_of_ne hd b

theorem Pushed.push_if (h : s.Sound) (dev : Device) (c : Prop) [Decidable c] (b : Body) :
    Pushed s (if c then Input64.push s dev b else s) dev (if c then [b] else []) := by
  split
  · exact .push h dev b
  · exact .refl h dev

theorem mouseReport_pushed (h : s.Sound) :
    Pushed s (mouseReport s) .mouse ((packetEvents s).elim [] complete) := by
  unfold mouseReport packetEvents
  simp only
  generalize movement (s.mousePacket 1) (s.mousePacket 0) 0x10 = dx
  generalize movement (s.mousePacket 2) (s.mousePacket 0) 0x20 = dy
  generalize s.mousePacket 0 &&& 0x07 = now
  generalize hchanged : now ^^^ s.mouseButtons = changed
  have p₁ := Pushed.push_if h .mouse (changed &&& 0x01 ≠ 0) ⟨EV64_KEY, BTN64_LEFT, if now &&& 0x01 ≠ 0 then 1 else 0⟩
  have p₂ := p₁.trans (Pushed.push_if p₁.sound .mouse (changed &&& 0x02 ≠ 0)
    ⟨EV64_KEY, BTN64_RIGHT, if now &&& 0x02 ≠ 0 then 1 else 0⟩)
  have p₃ := p₂.trans (Pushed.push_if p₂.sound .mouse (changed &&& 0x04 ≠ 0)
    ⟨EV64_KEY, BTN64_MIDDLE, if now &&& 0x04 ≠ 0 then 1 else 0⟩)
  generalize (if changed &&& 0x04 ≠ 0 then push _ .mouse _ else _ : Input) = s₃ at p₃ ⊢
  have p₃' : Pushed s { s₃ with mouseButtons := now } .mouse _ :=
    ⟨p₃.sound, p₃.modifiers, p₃.mouseIndex, p₃.bodies, p₃.room, p₃.others⟩
  have p₄ := p₃'.trans (Pushed.push_if p₃'.sound .mouse (dx ≠ 0) ⟨EV64_REL, REL64_X, dx⟩)
  have p₅ := p₄.trans (Pushed.push_if p₄.sound .mouse (dy ≠ 0) ⟨EV64_REL, REL64_Y, -dy⟩)
  by_cases hany : changed ≠ 0 ∨ dx ≠ 0 ∨ dy ≠ 0
  · rw [if_pos hany, if_pos hany]
    exact p₅.trans (.push p₅.sound .mouse syn)
  · rw [if_neg hany, if_neg hany]
    obtain ⟨hc, hx, hy⟩ : changed = 0 ∧ dx = 0 ∧ dy = 0 := by
      simpa [not_or] using hany
    simpa [hc, hx, hy] using p₅

theorem syn_notMem_report {dev : Device} {r : List Body} (h : reportOf s op = some (dev, r)) : syn ∉ r := by
  have hkey : EV64_KEY ≠ EV64_SYN := by decide
  have hrel : EV64_REL ≠ EV64_SYN := by decide
  cases op with
  | scancode byte =>
    rw [reportOf] at h
    split at h
    · simp at h
    · obtain ⟨-, rfl⟩ := h
      simp [syn, hkey.symm]
  | mouseByte byte =>
    rw [reportOf] at h
    split at h
    · simp at h
    · simp only [packetEvents] at h
      split at h
      · simp only [Option.map_some, Option.some.injEq, Prod.mk.injEq] at h
        obtain ⟨-, rfl⟩ := h
        simp [syn, hkey.symm, hrel.symm]
      · simp at h
  | read => simp [reportOf] at h

theorem react_fed (h : s.Sound) {byte : Nat} (hop : op = .scancode byte ∨ op = .mouseByte byte) :
    (react s op).2.Sound ∧ ∀ dev, (react s op).2.bodies dev = s.bodies dev ++
      match reportOf s op with
      | some (d, r) => if dev = d then (complete r).take (s.room dev) else []
      | none => [] := by
  obtain rfl | rfl := hop
  · simp only [react, reportOf, input64FeedScancode]
    split
    · exact ⟨h, fun dev => (List.append_nil _).symm⟩
    · have p := Pushed.push (s := { s with
          kbdExtended := false,
          modifiers := setModifier s.modifiers (modifierOf (byte % 0x80)) (0x80 ≤ byte) }) h .kbd
        ⟨EV64_KEY, byte % 0x80, if 0x80 ≤ byte then 0 else 1⟩
      have p' := p.trans (.push p.sound .kbd syn)
      refine ⟨by simpa [syncReport] using p'.sound, fun dev => ?_⟩
      by_cases hd : dev = .kbd
      · subst hd
        simpa [syncReport, complete, Input.bodies, Input.room] using p'.bodies
      · simpa [syncReport, hd, Input.bodies] using p'.others dev hd
  · simp only [react, reportOf, input64FeedMouseByte]
    by_cases hskip : s.mouseIndex = 0 ∧ !firstByte byte
    · rw [if_pos hskip, if_pos (.inl hskip)]
      exact ⟨h, fun dev => (List.append_nil _).symm⟩
    · rw [if_neg hskip]
      by_cases hmore : s.mouseIndex + 1 < 3
      · rw [if_pos hmore, if_pos (.inr hmore)]
        exact ⟨h, fun dev => (List.append_nil _).symm⟩
      · rw [if_neg hmore, if_neg (not_or.2 ⟨hskip, hmore⟩)]
        have p := mouseReport_pushed (s := s.withByte byte) h
        refine ⟨p.sound, fun dev => ?_⟩
        by_cases hd : dev = .mouse
        · subst hd
          refine p.bodies.trans ?_
          cases packetEvents (s.withByte byte) with
          | none => simp [Input.withByte, Input.bodies]
          | some r => simp [Input.withByte, Input.bodies, Input.room]
        · refine (p.others dev hd).trans ?_
          cases packetEvents (s.withByte byte) with
          | none => simp [Input.withByte, Input.bodies]
          | some r => simp [Input.withByte, Input.bodies, hd]

theorem input64Read_eq (h : s.Sound) (device : Int) (buf len : Nat) :
    (input64Read s device buf len).2.Sound ∧ ∀ dev,
      (if deviceOf device = some dev then (input64Read s device buf len).1 else []) ++
        unread ((input64Read s device buf len).2.queues dev) = unread (s.queues dev) := by
  unfold input64Read
  split
  · exact ⟨h, fun dev => by simp⟩
  · rename_i d hd
    split
    · exact ⟨h, fun dev => by simp⟩
    · obtain ⟨heq, hsound⟩ := readLoop_eq (h d) (len / EVENT_BYTES)
      refine ⟨fun dev => ?_, fun dev => ?_⟩
      · by_cases hdev : dev = d
        · subst hdev
          simpa using hsound
        · simpa [hdev] using h dev
      · by_cases hdev : dev = d
        · subst hdev
          simpa [hd] using heq
        · have : d ≠ dev := fun h => hdev h.symm
          simp [hd, hdev, this]

theorem sequence_step (h : w.input.Sound) (op : Op) :
    (w.step op).input.Sound ∧ ∀ dev, (w.step op).sequence dev = w.sequence dev ++
      match reportOf w.input op with
      | some (d, r) => if dev = d then (complete r).take (w.input.room dev) else []
      | none => [] := by
  cases op with
  | scancode byte =>
    obtain ⟨hsound, hbodies⟩ := react_fed h (.inl (Eq.refl (Op.scancode byte)))
    refine ⟨hsound, fun dev => ?_⟩
    rw [World.sequence, World.sequence, List.append_assoc, ← hbodies]
    rfl
  | mouseByte byte =>
    obtain ⟨hsound, hbodies⟩ := react_fed h (.inr (Eq.refl (Op.mouseByte byte)))
    refine ⟨hsound, fun dev => ?_⟩
    rw [World.sequence, World.sequence, List.append_assoc, ← hbodies]
    rfl
  | read device buf len =>
    obtain ⟨hsound, heq⟩ := input64Read_eq h device buf len
    refine ⟨hsound, fun dev => ?_⟩
    have := congrArg (List.map (·.toBody)) (heq dev)
    simp only [World.sequence, World.step, react, reportOf, List.append_nil, Input.bodies, ← this, List.map_append]
    split <;> simp

/-! ## Whole reports -/

theorem getLast?_complete (l : List (List Body)) :
    (l.flatMap complete).getLast? = if l = [] then none else some syn := by
  induction l using List.reverseRecOn with
  | nil => rfl
  | append_singleton l r ih => simp [complete]

theorem not_whole_of_take {r : List Body} {n : Nat} (hsyn : syn ∉ r) (hn : 0 < n) (hlt : n < r.length + 1)
    (a b : List (List Body)) : a.flatMap complete ++ (complete r).take n ≠ b.flatMap complete := by
  intro h
  have htake : (complete r).take n = r.take n := by
    rw [complete, List.take_append_of_le_length (by omega)]
  have hlast := congrArg List.getLast? h
  rw [htake, getLast?_complete] at hlast
  cases hr : (r.take n).getLast? with
  | none =>
    have := congrArg List.length (List.getLast?_eq_none_iff.1 hr)
    rw [List.length_take, List.length_nil] at this
    omega
  | some x =>
    rw [List.getLast?_append, hr, Option.some_or] at hlast
    split at hlast
    · simp at hlast
    · obtain rfl := Option.some.inj hlast
      exact hsyn (List.mem_of_mem_take (List.mem_of_getLast? hr))

theorem whole_step (h : w.input.Sound) (hw : Whole w) (op : Op) : Whole (w.step op) ↔ Fits w op := by
  obtain ⟨-, hseq⟩ := sequence_step h op
  cases hr : reportOf w.input op with
  | none =>
    have hfits : Fits w op := by simp [Fits, hr]
    refine iff_of_true (fun dev => ?_) hfits
    obtain ⟨kept, hsub, hall, heq⟩ := hw dev
    refine ⟨kept, ?_, ?_, ?_⟩
    · simpa [World.step, hr] using hsub
    · simpa [World.step, hr] using hall
    · rw [hseq, heq, hr, List.append_nil]
  | some dr =>
    obtain ⟨d, r⟩ := dr
    have hfits : Fits w op ↔ w.input.room d = 0 ∨ r.length + 1 ≤ w.input.room d := by
      simp [Fits, hr]
    have hfed : (w.step op).fed = fun dev =>
        if dev = d then w.fed dev ++ [(r, decide (0 < w.input.room dev))] else w.fed dev := by
      simp [World.step, hr]
    rw [hfits]
    simp only [hr] at hseq
    constructor
    · intro hwhole
      obtain ⟨kept, -, -, heq⟩ := hw d
      obtain ⟨kept', -, -, heq'⟩ := hwhole d
      rw [hseq, heq, if_pos rfl] at heq'
      by_contra! hpart
      exact not_whole_of_take (syn_notMem_report hr) (by omega) (by omega) _ _ heq'
    · intro hroom dev
      obtain ⟨kept, hsub, hall, heq⟩ := hw dev
      rw [hseq, hfed, heq]
      by_cases hd : dev = d
      · subst hd
        simp only [if_true]
        obtain hnone | hfit := hroom
        · refine ⟨kept, hsub.trans (List.sublist_append_left _ _), by simpa [hnone] using hall, ?_⟩
          rw [hnone, List.take_zero, List.append_nil]
        · have hroom : 0 < w.input.room dev := Nat.lt_of_lt_of_le (Nat.succ_pos _) hfit
          refine ⟨kept ++ [(r, true)], by simpa [hroom] using hsub, by simpa [hroom] using hall, ?_⟩
          rw [List.take_of_length_le (by simpa [complete] using hfit), List.map_append, List.flatMap_append]
          simp
      · simp only [if_neg hd, List.append_nil]
        exact ⟨kept, hsub, hall, rfl⟩

/-! ## The modifiers -/

theorem testBit_bit (m m' : Modifier) : (2 ^ m.bit).testBit m'.bit = decide (m' = m) := by
  cases m <;> cases m' <;> rfl

theorem testBit_mask (m m' : Modifier) : (0xFFFFFFFF ^^^ 2 ^ m.bit).testBit m'.bit = decide (m' ≠ m) := by
  cases m <;> cases m' <;> rfl

theorem testBit_setModifier (modifiers : Nat) (m m' : Modifier) (released : Bool) :
    (setModifier modifiers (some m) released).testBit m'.bit =
      if m' = m then !released else modifiers.testBit m'.bit := by
  cases released with
  | false =>
    have h : setModifier modifiers (some m) false = modifiers ||| 2 ^ m.bit := rfl
    rw [h, Nat.testBit_or, testBit_bit]
    by_cases hm : m' = m <;> simp [hm]
  | true =>
    have h : setModifier modifiers (some m) true = modifiers &&& (0xFFFFFFFF ^^^ 2 ^ m.bit) := rfl
    rw [h, Nat.testBit_and, testBit_mask]
    by_cases hm : m' = m <;> simp [hm]

theorem modifiers_step (h : w.input.Sound) (op : Op) :
    (w.step op).input.modifiers = match op with
      | .scancode byte =>
        if byte = 0xE0 then w.input.modifiers
        else setModifier w.input.modifiers (modifierOf (byte % 0x80)) (0x80 ≤ byte)
      | _ => w.input.modifiers := by
  cases op with
  | scancode byte =>
    simp only [World.step, react, input64FeedScancode, syncReport]
    split
    · rfl
    · have p := Pushed.push (s := { w.input with
          kbdExtended := false,
          modifiers := setModifier w.input.modifiers (modifierOf (byte % 0x80)) (0x80 ≤ byte) }) h .kbd
        ⟨EV64_KEY, byte % 0x80, if 0x80 ≤ byte then 0 else 1⟩
      simpa using (p.trans (.push p.sound .kbd syn)).modifiers
  | mouseByte byte =>
    simp only [World.step, react, input64FeedMouseByte]
    split
    · rfl
    · split
      · rfl
      · exact (mouseReport_pushed (s := w.input.withByte byte) h).modifiers
  | read device buf len =>
    simp only [World.step, react, input64Read]
    split
    · rfl
    · split <;> rfl

theorem truthful_step (h : w.input.Sound) (hw : Truthful w) (op : Op) : Truthful (w.step op) ↔ LastKey w op := by
  have hmod := modifiers_step h op
  cases op with
  | mouseByte byte => exact iff_of_true (fun m => by rw [hmod]; exact hw m) trivial
  | read device buf len => exact iff_of_true (fun m => by rw [hmod]; exact hw m) trivial
  | scancode byte =>
    by_cases hprefix : byte = 0xE0
    · subst hprefix
      refine iff_of_true (fun m => ?_) fun hne => absurd rfl hne
      rw [hmod]
      simpa [World.step, World.heldAfter] using hw m
    · simp only [if_neg hprefix] at hmod
      have hheld : (w.step (.scancode byte)).held = fun ext code =>
          if ext = w.input.kbdExtended ∧ code = byte % 0x80 then decide (byte < 0x80) else w.held ext code := by
        simp [World.step, World.heldAfter, hprefix]
      cases hm : modifierOf (byte % 0x80) with
      | none =>
        -- a key of no modifier
        refine iff_of_true (fun m => ?_) fun _ _ m h => absurd (hm.symm.trans h) (by simp)
        rw [hmod, hheld, hm, setModifier, hw m]
        refine exists_congr fun ext => exists_congr fun code => and_congr_right fun hcode => ?_
        have : code ≠ byte % 0x80 := by
          rintro rfl
          simp [hm] at hcode
        simp [this]
      | some m₀ =>
        have hother : ∀ m ≠ m₀, ((w.step (.scancode byte)).input.modifiers.testBit m.bit = true ↔
            ∃ ext code, modifierOf code = some m ∧ (w.step (.scancode byte)).held ext code = true) := by
          intro m hne
          rw [hmod, hheld, hm, testBit_setModifier, if_neg hne, hw m]
          refine exists_congr fun ext => exists_congr fun code => and_congr_right fun hcode => ?_
          have : code ≠ byte % 0x80 := by
            rintro rfl
            exact hne (Option.some.inj (hcode.symm.trans hm))
          simp [this]
        have hown : (w.step (.scancode byte)).input.modifiers.testBit m₀.bit = !decide (0x80 ≤ byte) := by
          rw [hmod, hm, testBit_setModifier, if_pos rfl]
        by_cases hup : 0x80 ≤ byte
        · constructor
          · intro htrue _ _ m hcode ext code hsame hdown
            obtain rfl := Option.some.inj (hm.symm.trans hcode)
            by_contra hdiff
            have hset := (htrue m₀).2 ⟨ext, code, hsame, by rw [hheld]; simpa [hdiff] using hdown⟩
            simp [hown, hup] at hset
          · intro hlast m
            by_cases hne : m = m₀
            · subst hne
              refine iff_of_false (by simp [hown, hup]) ?_
              rintro ⟨ext, code, hcode, hdown⟩
              rw [hheld] at hdown
              simp only at hdown
              split at hdown
              · simp only [decide_eq_true_eq] at hdown
                omega
              · rename_i hdiff
                exact hdiff (hlast hprefix hup m hm ext code hcode hdown)
            · exact hother m hne
        · refine iff_of_true (fun m => ?_) fun _ h => absurd h hup
          by_cases hne : m = m₀
          · subst hne
            refine iff_of_true (by simp [hown, hup]) ⟨w.input.kbdExtended, byte % 0x80, hm, ?_⟩
            simp [hheld, Nat.not_le.1 hup]
          · exact hother m hne

end Step

/-! ## Every run -/

theorem start_sound (s : Input) : (World.start s).input.Sound := fun _ => ⟨Nat.zero_lt_succ _, Nat.zero_lt_succ _⟩

theorem start_whole (s : Input) : Whole (World.start s) :=
  fun _ => ⟨[], List.Sublist.refl _, List.Sublist.refl _, by simp [World.sequence, World.start,
      Input.bodies, unread, queued, input64Reset, RingBuffer.contents]⟩

theorem start_truthful (s : Input) : Truthful (World.start s) := by
  intro m
  simp [World.start, input64Reset]

/-- In a run of the two devices every report is delivered whole or not at all,
and the modifiers tell which keys are down, exactly as long as no report comes
when there is room for a part of it only, and no modifier key is let go of
while another key of the same modifier is down. -/
theorem reports_whole_iff (s : Input) (ops : List Op) :
    machine.Always (fun w => Whole w ∧ Truthful w) (World.start s) ops ↔
      machine.Guarded (fun w op => Fits w op ∧ LastKey w op) (World.start s) ops := by
  have hsound : ∀ (w : World) (op : Op), w.input.Sound → (w.step op).input.Sound :=
      fun w op h => (sequence_step h op).1
  have hstep : ∀ (w : World) (op : Op), w.input.Sound → Whole w ∧ Truthful w →
      (Whole (w.step op) ∧ Truthful (w.step op) ↔ Fits w op ∧ LastKey w op) :=
    fun w op h hgood => and_congr (whole_step h hgood.1 op) (truthful_step h hgood.2 op)
  exact machine.always_iff_guarded hsound hstep ops _ (start_sound s) ⟨start_whole s, start_truthful s⟩

/-- No queue holds anything, and no key is down. -/
def quiet : Input where
  queues := fun _ => ⟨fun _ => ⟨syn, 0, 0⟩, 0, 0, 0⟩
  modifiers := 0
  eventSeq := 0
  kbdExtended := false
  mousePacket := fun _ => 0
  mouseIndex := 0
  mouseButtons := 0

/-- Both shift keys go down, and the left one is let go of. -/
def bothShifts : List Op := [.scancode 0x2A, .scancode 0x36, .scancode 0xAA]

/-- A key goes down 128 times, and nobody reads. -/
def nobodyReads : List Op := List.replicate 128 (.scancode 0x1E)

set_option maxRecDepth 20000

/-- The right shift key is still down and no shift is reported; and of the last
report in the full queue there is the key and no SYN_REPORT. -/
theorem bothShifts_lost_and_report_torn :
    ¬Truthful (machine.run (World.start quiet) bothShifts) ∧ ¬Whole (machine.run (World.start quiet) nobodyReads) := by
  constructor
  · intro h
    have hheld : (machine.run (World.start quiet) bothShifts).held false SC_RSHIFT = true := by decide
    have := (h .shift).2 ⟨false, SC_RSHIFT, rfl, hheld⟩
    exact absurd this (by decide)
  · intro h
    have hlast : ((machine.run (World.start quiet) nobodyReads).sequence .kbd).getLast? =
        some ⟨EV64_KEY, 0x1E, 1⟩ := by
      decide
    obtain ⟨kept, -, -, heq⟩ := h .kbd
    rw [heq, getLast?_complete] at hlast
    split at hlast
    · simp at hlast
    · exact absurd (Option.some.inj hlast) (by decide)

end NovarisOS.Input64
