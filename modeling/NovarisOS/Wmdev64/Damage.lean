/-
NovarisOS.Wmdev64.Damage — a window of the 64-bit kernel's `/dev/wm`, and the
copy of a part of it to the screen: `wmdev64_create` and `wmdev64_damage` of
`kernel/wmdev64.c`.

A window's buffer is a list of page frames. An index into it that is not below
`nframes` is a fault of the model. What is shown is the list of the calls of
`fb64_put_pixel` that change the screen, in order.

`int32_t` sums wrap, as the machine's do.
-/
import NovarisOS.Lib.Checked
import NovarisOS.Page

namespace NovarisOS.Wmdev64

open Checked

abbrev WM64_MAX_W : Nat := 2048
abbrev WM64_MAX_H : Nat := 2048
abbrev WM64_MAX_FRAMES : Nat := 2048

/-- A value of `int32_t`. -/
def i32 (z : Int) : Int := (z + 0x80000000) % 0x100000000 - 0x80000000

/-- `(uint32_t)` of an `int32_t`. -/
def u32 (z : Int) : Nat := (z % 0x100000000).toNat

/-- `struct wm64_rect`. -/
structure Rect where
  x : Int
  y : Int
  w : Int
  h : Int
  deriving DecidableEq, Repr

/-- `wm64_window_t`, of one that is used; `frames` are the first `nframes`. -/
structure Window where
  w : Nat
  h : Nat
  stride : Nat
  capH : Nat
  bytes : Nat
  frames : List Nat

/-- What `fb64.c` says of the screen. -/
structure Screen where
  ready : Bool
  width : Nat
  height : Nat

/-- A pixel of the screen that is written. -/
structure Put where
  x : Nat
  y : Nat
  color : Nat
  deriving DecidableEq, Repr

/-- `wmdev64_create`, with a slot to spare or none: `alloc` answers the
requests for frames, 0 being none. -/
def wmdev64Create (w h : Nat) (slot : Bool) (alloc : Nat → Nat) : Except Int Window :=
  if w = 0 ∨ h = 0 ∨ w > WM64_MAX_W ∨ h > WM64_MAX_H then .error (-22)
  else if !slot then .error (-24)
  else
    let bytes := (w * h * 4 + PAGE64_SIZE - 1) / PAGE64_SIZE * PAGE64_SIZE
    let npages := bytes / PAGE64_SIZE
    if npages > WM64_MAX_FRAMES then .error (-12)
    else
      let frames := (List.range npages).map alloc
      if 0 ∈ frames then .error (-12)
      else .ok ⟨w, h, w, h, bytes, frames⟩

/-! ## Showing it -/

/-- `w->frames[i]`. -/
def Window.frame (win : Window) (i : Nat) : Except Stop Nat :=
  match win.frames[i]? with
  | some f => .ok f
  | none => .error .fault

def fb64PutPixel (fb : Screen) (x y color : Nat) : List Put :=
  if !fb.ready ∨ x ≥ fb.width ∨ y ≥ fb.height then [] else [⟨x, y, color⟩]

/-- The rectangle clipped to the window, if there is something to show. -/
def clip (win : Window) (r : Rect) : Option Rect :=
  if r.w ≤ 0 ∨ r.h ≤ 0 then none
  else
    let box := if r.x < 0 then { r with w := i32 (r.w + r.x), x := 0 } else r
    let box := if box.y < 0 then { box with h := i32 (box.h + box.y), y := 0 } else box
    if box.x ≥ win.w ∨ box.y ≥ win.h then none
    else
      let box := if i32 (box.x + box.w) > win.w then { box with w := win.w - box.x } else box
      let box := if i32 (box.y + box.h) > win.h then { box with h := win.h - box.y } else box
      some box

section Loops

variable (win : Window) (fb : Screen) (phys : Mem) (box : Rect)

/-- The loop over the columns, from `col` on with `n` to go. -/
def damageRow (dy off : Nat) : (n col : Nat) → List Put → Except Stop (List Put)
  | 0, _, log => .ok log
  | n + 1, col, log =>
    let dx := u32 (box.x + col)
    let poff := off + col * 4
    if dx ≥ fb.width then .ok log
    else do
      let f ← win.frame (poff / PAGE64_SIZE)
      damageRow dy off n (col + 1) (log ++ fb64PutPixel fb dx dy (phys.rd32 (f + poff % PAGE64_SIZE)))

/-- The loop over the rows. -/
def damageRows : (n row : Nat) → List Put → Except Stop (List Put)
  | 0, _, log => .ok log
  | n + 1, row, log =>
    let dy := u32 (box.y + row)
    if dy ≥ fb.height then .ok log
    else do
      let off := (dy * win.stride + u32 box.x) * 4
      -- `src`, which nothing uses.
      let _ ← win.frame (off / PAGE64_SIZE)
      let log ← damageRow win fb phys box dy off box.w.toNat 0 log
      damageRows n (row + 1) log

end Loops

/-- `wmdev64_damage`, of the window that `get` finds: what it returns, and the
pixels. -/
def wmdev64Damage (win : Option Window) (fb : Screen) (phys : Mem) (r : Option Rect) :
    Except Stop (Int × List Put) :=
  match r, win with
  | none, _ => .ok (-14, [])
  | some _, none => .ok (-9, [])
  | some r, some win =>
    if !fb.ready then .ok (-19, [])
    else
      match clip win r with
      | none => .ok (0, [])
      | some box => do
        let log ← damageRows win fb phys box box.h.toNat 0 []
        .ok (0, log)

/-! ## What is to be shown -/

/-- What `damage` relies on in a window. -/
structure Window.Sound (win : Window) : Prop where
  width : 0 < win.w ∧ win.w ≤ WM64_MAX_W
  height : 0 < win.h ∧ win.h ≤ WM64_MAX_H
  stride : win.stride = win.w
  frames : win.frames.length = (win.w * win.h * 4 + PAGE64_SIZE - 1) / PAGE64_SIZE

/-- A window that `wmdev64_create` makes is sound. -/
theorem wmdev64Create_sound {w h : Nat} {slot : Bool} {alloc : Nat → Nat} {win : Window}
    (hmade : wmdev64Create w h slot alloc = .ok win) : win.Sound := by
  unfold wmdev64Create at hmade
  split at hmade
  · cases hmade
  dsimp only at hmade
  split_ifs at hmade
  cases hmade
  refine ⟨by dsimp only; omega, by dsimp only; omega, rfl, ?_⟩
  rw [List.length_map, List.length_range, Nat.mul_div_cancel _ (by decide)]

/-- The window's buffer. -/
def Window.buffer (win : Window) (phys : Mem) : Mem := fun k =>
  phys (win.frames.getD (k / PAGE64_SIZE) 0 + k % PAGE64_SIZE)

/-- The buffer's pixel at (x, y). -/
def Window.pixel (win : Window) (phys : Mem) (x y : Nat) : Nat := (win.buffer phys).rd32 ((y * win.w + x) * 4)

/-- (x, y) lies in the rectangle. -/
def Rect.Has (r : Rect) (x y : Nat) : Prop := (r.x ≤ x ∧ x < r.x + r.w) ∧ r.y ≤ y ∧ y < r.y + r.h

/-- Four values of `int32_t`. -/
structure Rect.Valid (r : Rect) : Prop where
  x : -0x80000000 ≤ r.x ∧ r.x < 0x80000000
  y : -0x80000000 ≤ r.y ∧ r.y < 0x80000000
  w : -0x80000000 ≤ r.w ∧ r.w < 0x80000000
  h : -0x80000000 ≤ r.h ∧ r.h < 0x80000000

/-- A screen that can be shown on. -/
structure Screen.Valid (fb : Screen) : Prop where
  ready : fb.ready = true
  width : fb.width < 0x100000000
  height : fb.height < 0x100000000

/-- The pixels written are those of the rectangle, the window and the screen. -/
def Shows (win : Window) (fb : Screen) (phys : Mem) (r : Rect) (log : List Put) : Prop :=
  ∀ x y c, (⟨x, y, c⟩ : Put) ∈ log ↔
    r.Has x y ∧ (x < win.w ∧ y < win.h) ∧ (x < fb.width ∧ y < fb.height) ∧ c = win.pixel phys x y

/-- The frame of the last row that is looked at, where the lower end wraps and
nothing of a row is shown. -/
def lastFrame (win : Window) (fb : Screen) (r : Rect) : Int :=
  ((min (fb.height : Int) (r.y + r.h) - 1) * win.w + max r.x 0) * 4 / PAGE64_SIZE

/-- An end of the rectangle is past 2^31, and the screen goes on where the
window ends. -/
def Overruns (win : Window) (fb : Screen) (r : Rect) : Prop :=
  (0 < r.w ∧ 0 < r.h ∧ r.x < win.w ∧ r.y < win.h) ∧
    ((0x80000000 ≤ r.x + r.w ∧ win.w < fb.width ∧ max r.y 0 < fb.height ∧ 0 < r.y + r.h) ∨
      (0x80000000 ≤ r.y + r.h ∧ win.h < fb.height ∧
        (max r.x 0 < fb.width ∧ 0 < r.x + r.w ∨ win.frames.length ≤ lastFrame win fb r)))

/-! ## The loops -/

section Loops

variable {win : Window} {fb : Screen} {phys : Mem} {box : Rect}

theorem u32_of_nat {n : Nat} {z : Int} (hz : z = n) (h : n < 0x100000000) : u32 z = n := by
  simp only [u32]
  omega

theorem i32_of_bounds {z : Int} (h₁ : -0x80000000 ≤ z) (h₂ : z < 0x80000000) : i32 z = z := by
  simp only [i32]
  omega

theorem frame_of_lt {i : Nat} (h : i < win.frames.length) : win.frame i = .ok (win.frames.getD i 0) := by
  rw [Window.frame, List.getElem?_eq_getElem h, List.getD_eq_getElem _ _ h]

theorem frame_of_le {i : Nat} (h : win.frames.length ≤ i) : win.frame i = .error .fault := by
  rw [Window.frame, List.getElem?_eq_none h]

theorem pixel_eq (win : Window) (phys : Mem) (k : Nat) :
    phys.rd32 (win.frames.getD (k * 4 / PAGE64_SIZE) 0 + k * 4 % PAGE64_SIZE) = (win.buffer phys).rd32 (k * 4) := by
  have hat : ∀ j < 4, win.buffer phys (k * 4 + j) =
      phys (win.frames.getD (k * 4 / PAGE64_SIZE) 0 + k * 4 % PAGE64_SIZE + j) := by
    intro j hj
    have hdiv : (k * 4 + j) / PAGE64_SIZE = k * 4 / PAGE64_SIZE := by
      simp only [PAGE64_SIZE]
      omega
    have hmod : (k * 4 + j) % PAGE64_SIZE = k * 4 % PAGE64_SIZE + j := by
      simp only [PAGE64_SIZE]
      omega
    rw [Window.buffer, hdiv, hmod, Nat.add_assoc]
  have h0 := hat 0 (by decide)
  rw [Nat.add_zero, Nat.add_zero] at h0
  rw [Mem.rd32, Mem.rd32, h0, hat 1 (by decide), hat 2 (by decide), hat 3 (by decide)]

/-- What a row of `n` columns from `(dx, dy)` on makes of the screen, whose
bytes in the buffer are those of the pixels from `k` on. -/
def rowPuts (win : Window) (phys : Mem) (dx dy k n : Nat) : List Put :=
  (List.range n).map fun j => ⟨dx + j, dy, (win.buffer phys).rd32 ((k + j) * 4)⟩

/-- All the frames of `n` pixels from pixel `k` on are there. -/
def FramesHold (win : Window) (k n : Nat) : Prop := ∀ j < n, (k + j) * 4 / PAGE64_SIZE < win.frames.length

instance (win : Window) (k n : Nat) : Decidable (FramesHold win k n) := by
  unfold FramesHold
  infer_instance

theorem rowPuts_succ (dx dy k n : Nat) :
    rowPuts win phys dx dy k (n + 1) =
      ⟨dx, dy, (win.buffer phys).rd32 (k * 4)⟩ :: rowPuts win phys (dx + 1) dy (k + 1) n := by
  simp [rowPuts, List.range_succ_eq_map, Function.comp_def, Nat.add_assoc, Nat.add_comm 1]

theorem framesHold_succ {k n : Nat} :
    FramesHold win k (n + 1) ↔ k * 4 / PAGE64_SIZE < win.frames.length ∧ FramesHold win (k + 1) n := by
  simp only [FramesHold, Nat.forall_lt_succ_left, Nat.add_zero, Nat.add_assoc, Nat.add_comm 1]

theorem damageRow_eq {bx dy k n col : Nat} (hready : fb.ready = true) (hbox : box.x = bx) (hdy : dy < fb.height)
    (hfit : bx + col + n < 0x100000000) (log : List Put) :
    damageRow win fb phys box dy (k * 4) n col log =
      if FramesHold win (k + col) (min n (fb.width - (bx + col))) then
        .ok (log ++ rowPuts win phys (bx + col) dy (k + col) (min n (fb.width - (bx + col))))
      else .error .fault := by
  induction n generalizing col log with
  | zero => simp [damageRow, rowPuts, FramesHold]
  | succ n ih =>
    have hdx : u32 (box.x + col) = bx + col := u32_of_nat (by rw [hbox]; push_cast; rfl) (by omega)
    rw [damageRow]
    simp only [hdx]
    by_cases hend : fb.width ≤ bx + col
    · rw [if_pos hend, show min (n + 1) (fb.width - (bx + col)) = 0 by omega]
      simp [rowPuts, FramesHold]
    · rw [if_neg hend, show min (n + 1) (fb.width - (bx + col)) = min n (fb.width - (bx + (col + 1))) + 1 by omega]
      rw [show k * 4 + col * 4 = (k + col) * 4 by omega]
      by_cases hframe : (k + col) * 4 / PAGE64_SIZE < win.frames.length
      · have hput : ∀ c, fb64PutPixel fb (bx + col) dy c = [⟨bx + col, dy, c⟩] := by
          intro c
          rw [fb64PutPixel, if_neg]
          simp only [hready, Bool.not_true, Bool.false_eq_true, false_or]
          omega
        simp only [frame_of_lt hframe, bind, Except.bind, hput, pixel_eq]
        rw [ih (by omega), rowPuts_succ]
        simp only [framesHold_succ, hframe, true_and, Nat.add_assoc, List.append_assoc, List.singleton_append]
      · rw [frame_of_le (by omega), if_neg fun hall => hframe (framesHold_succ.1 hall).1]
        rfl

/-- The pixels of `n` rows of `cols` columns from `(bx, dy)` on. -/
def boxPuts (win : Window) (phys : Mem) (bx dy cols n : Nat) : List Put :=
  (List.range n).flatMap fun i => rowPuts win phys bx (dy + i) ((dy + i) * win.stride + bx) cols

/-- The frames of these pixels are there, and that of the start of each row. -/
def RowsHold (win : Window) (bx dy cols n : Nat) : Prop :=
  ∀ i < n, ((dy + i) * win.stride + bx) * 4 / PAGE64_SIZE < win.frames.length ∧
    FramesHold win ((dy + i) * win.stride + bx) cols

instance (win : Window) (bx dy cols n : Nat) : Decidable (RowsHold win bx dy cols n) := by
  unfold RowsHold
  infer_instance

theorem boxPuts_succ (bx dy cols n : Nat) :
    boxPuts win phys bx dy cols (n + 1) =
      rowPuts win phys bx dy (dy * win.stride + bx) cols ++ boxPuts win phys bx (dy + 1) cols n := by
  simp [boxPuts, List.range_succ_eq_map, List.flatMap_map, Nat.add_assoc, Nat.add_comm 1]

theorem rowsHold_succ {bx dy cols n : Nat} :
    RowsHold win bx dy cols (n + 1) ↔
      (dy * win.stride + bx) * 4 / PAGE64_SIZE < win.frames.length ∧ FramesHold win (dy * win.stride + bx) cols ∧
        RowsHold win bx (dy + 1) cols n := by
  simp only [RowsHold, Nat.forall_lt_succ_left, Nat.add_zero, Nat.add_assoc, Nat.add_comm 1, and_assoc]

theorem damageRows_eq {bx dy₀ n row : Nat} (hready : fb.ready = true) (hbx : box.x = bx) (hby : box.y = dy₀)
    (hcols : bx + box.w.toNat < 0x100000000) (hrows : dy₀ + row + n < 0x100000000) (log : List Put) :
    damageRows win fb phys box n row log =
      if RowsHold win bx (dy₀ + row) (min box.w.toNat (fb.width - bx)) (min n (fb.height - (dy₀ + row))) then
        .ok (log ++ boxPuts win phys bx (dy₀ + row) (min box.w.toNat (fb.width - bx))
          (min n (fb.height - (dy₀ + row))))
      else .error .fault := by
  induction n generalizing row log with
  | zero => simp [damageRows, boxPuts, RowsHold]
  | succ n ih =>
    have hdy : u32 (box.y + row) = dy₀ + row := u32_of_nat (by rw [hby]; push_cast; rfl) (by omega)
    have hx : u32 box.x = bx := u32_of_nat hbx (by omega)
    rw [damageRows]
    simp only [hdy, hx]
    by_cases hend : fb.height ≤ dy₀ + row
    · rw [if_pos hend, show min (n + 1) (fb.height - (dy₀ + row)) = 0 by omega]
      simp [boxPuts, RowsHold]
    · rw [if_neg hend, show min (n + 1) (fb.height - (dy₀ + row)) = min n (fb.height - (dy₀ + (row + 1))) + 1 by omega]
      by_cases hframe : ((dy₀ + row) * win.stride + bx) * 4 / PAGE64_SIZE < win.frames.length
      case neg =>
        rw [frame_of_le (by omega), if_neg fun hall => hframe (rowsHold_succ.1 hall).1]
        rfl
      case pos =>
      have hrow := @damageRow_eq win fb phys box bx (dy₀ + row) ((dy₀ + row) * win.stride + bx) box.w.toNat 0
        hready hbx (show dy₀ + row < fb.height by omega) (by omega) log
      simp only [Nat.add_zero] at hrow
      simp only [frame_of_lt hframe, bind, Except.bind, hrow]
      by_cases hall : FramesHold win ((dy₀ + row) * win.stride + bx) (min box.w.toNat (fb.width - bx))
      · rw [if_pos hall]
        simp only
        rw [ih (by omega), boxPuts_succ]
        simp only [rowsHold_succ, hframe, hall, true_and, Nat.add_assoc, List.append_assoc]
      · rw [if_neg hall, if_neg fun h => hall (rowsHold_succ.1 h).2.1]

end Loops

/-! ## What is shown -/

section Shown

variable {win : Window} {fb : Screen} {phys : Mem} {r : Rect}

theorem mem_boxPuts {bx dy cols n x y c : Nat} :
    (⟨x, y, c⟩ : Put) ∈ boxPuts win phys bx dy cols n ↔
      (bx ≤ x ∧ x < bx + cols) ∧ (dy ≤ y ∧ y < dy + n) ∧ c = (win.buffer phys).rd32 ((y * win.stride + x) * 4) := by
  simp only [boxPuts, rowPuts, List.mem_flatMap, List.mem_map, List.mem_range, Put.mk.injEq]
  constructor
  · rintro ⟨i, hi, j, hj, rfl, rfl, rfl⟩
    exact ⟨by omega, by omega, by rw [Nat.add_assoc]⟩
  · rintro ⟨hx, hy, rfl⟩
    refine ⟨y - dy, by omega, x - bx, by omega, by omega, by omega, ?_⟩
    rw [show dy + (y - dy) = y by omega, show y * win.stride + bx + (x - bx) = y * win.stride + x by omega]

theorem Window.Sound.frame_lt (hw : win.Sound) {x y : Nat} (hx : x < win.w) (hy : y < win.h) :
    (y * win.stride + x) * 4 / PAGE64_SIZE < win.frames.length := by
  have hlast : y * win.w + x + 1 ≤ win.w * win.h := by
    calc y * win.w + x + 1 ≤ y * win.w + win.w := by omega
      _ = win.w * (y + 1) := by rw [Nat.mul_succ, Nat.mul_comm]
      _ ≤ win.w * win.h := Nat.mul_le_mul_left _ hy
  rw [hw.frames, hw.stride]
  simp only [PAGE64_SIZE]
  omega

/-- The box that is shown, when there is one. -/
structure Clipped (win : Window) (r box : Rect) : Prop where
  pos : 0 < r.w ∧ 0 < r.h
  inside : r.x < win.w ∧ r.y < win.h
  x : box.x = max r.x 0
  y : box.y = max r.y 0
  w : (0x80000000 ≤ r.x + r.w ∧ box.w = r.w) ∨
    (r.x + r.w < 0x80000000 ∧ box.w = min (r.x + r.w) win.w - max r.x 0)
  h : (0x80000000 ≤ r.y + r.h ∧ box.h = r.h) ∨
    (r.y + r.h < 0x80000000 ∧ box.h = min (r.y + r.h) win.h - max r.y 0)

theorem clip_extent {o e x w : Int} {limit : Nat} (ho : -0x80000000 ≤ o ∧ o < 0x80000000) (he : 0 < e ∧ e < 0x80000000)
    (hx : x = max o 0) (hw : w = o + e - max o 0) (hlimit : limit ≤ 2048) :
    (0x80000000 ≤ o + e ∧ (if i32 (x + w) > limit then limit - x else w) = e) ∨
      (o + e < 0x80000000 ∧ (if i32 (x + w) > limit then limit - x else w) = min (o + e) limit - max o 0) := by
  have hsum : x + w = o + e := by omega
  rw [hsum]
  by_cases hover : 0x80000000 ≤ o + e
  · refine .inl ⟨hover, ?_⟩
    rw [if_neg (by simp only [i32]; omega)]
    omega
  · refine .inr ⟨by omega, ?_⟩
    rw [i32_of_bounds (by omega) (by omega)]
    split <;> omega

theorem frame_cast (y w x : Nat) :
    (((y * w + x) * 4 / PAGE64_SIZE : Nat) : Int) = ((y : Int) * w + x) * 4 / PAGE64_SIZE := by
  rw [Int.natCast_ediv, Int.natCast_mul, Int.natCast_add, Int.natCast_mul]
  rfl

theorem extent_mem {o e b w : Int} {limit : Nat} (he : e < 0x80000000) (hb : b = max o 0)
    (h : (0x80000000 ≤ o + e ∧ w = e) ∨ (o + e < 0x80000000 ∧ w = min (o + e) limit - max o 0)) {x : Nat}
    (hx : x < limit) : (b ≤ x ∧ x < b + w) ↔ (o ≤ x ∧ x < o + e) := by
  omega

theorem clip_cases (hw : win.Sound) (hr : r.Valid) :
    (clip win r = none ∧ ¬ ((0 < r.w ∧ 0 < r.h) ∧ r.x < win.w ∧ r.y < win.h)) ∨
      ∃ box, clip win r = some box ∧ Clipped win r box := by
  obtain ⟨hx, hy, hrw, hrh⟩ := hr
  have hww := hw.width
  have hwh := hw.height
  simp only [WM64_MAX_W, WM64_MAX_H] at hww hwh
  unfold clip
  by_cases hpos : r.w ≤ 0 ∨ r.h ≤ 0
  · exact .inl ⟨if_pos hpos, by omega⟩
  rw [if_neg hpos]
  -- The part left of the window and above it goes.
  obtain ⟨b, hb, hbx, hbw, hby, hbh⟩ : ∃ b : Rect,
      (let box := if r.x < 0 then { r with w := i32 (r.w + r.x), x := 0 } else r
        if box.y < 0 then { box with h := i32 (box.h + box.y), y := 0 } else box) = b ∧
      b.x = max r.x 0 ∧ b.w = r.x + r.w - max r.x 0 ∧ b.y = max r.y 0 ∧ b.h = r.y + r.h - max r.y 0 := by
    refine ⟨_, rfl, ?_⟩
    have h₁ : r.x < 0 → i32 (r.w + r.x) = r.w + r.x := fun _ => i32_of_bounds (by omega) (by omega)
    have h₂ : r.y < 0 → i32 (r.h + r.y) = r.h + r.y := fun _ => i32_of_bounds (by omega) (by omega)
    by_cases hneg : r.x < 0 <;> by_cases hnegy : r.y < 0 <;> simp only [hneg, hnegy, if_true, if_false] <;>
      refine ⟨?_, ?_, ?_, ?_⟩ <;> omega
  simp only at hb ⊢
  rw [hb]
  by_cases hin : b.x ≥ win.w ∨ b.y ≥ win.h
  · exact .inl ⟨if_pos hin, by omega⟩
  rw [if_neg hin]
  refine .inr ⟨_, rfl, ⟨by omega, by omega⟩, ⟨by omega, by omega⟩, ?_, ?_, ?_, ?_⟩
  · split <;> split <;> exact hbx
  · split <;> split <;> exact hby
  · have hwidth := @clip_extent _ _ _ _ win.w hx ⟨by omega, hrw.2⟩ hbx hbw (by omega)
    rwa [show ∀ (c : Prop) [Decidable c] (b₂ : Rect) (v : Int), (if c then { b₂ with h := v } else b₂).w = b₂.w by
      intro c _ b₂ v; split <;> rfl, show ∀ (c : Prop) [Decidable c] (v : Int),
      (if c then { b with w := v } else b).w = if c then v else b.w by intro c _ v; split <;> rfl]
  · have hheight := @clip_extent _ _ _ _ win.h hy ⟨by omega, hrh.2⟩ hby hbh (by omega)
    have hsame : ∀ (c : Prop) [Decidable c] (v : Int), (if c then { b with w := v } else b).y = b.y ∧
        (if c then { b with w := v } else b).h = b.h := by
      intro c _ v
      split <;> exact ⟨rfl, rfl⟩
    rwa [show ∀ (c : Prop) [Decidable c] (b₂ : Rect) (v : Int),
      (if c then { b₂ with h := v } else b₂).h = if c then v else b₂.h by intro c _ b₂ v; split <;> rfl,
      (hsame _ _).1, (hsame _ _).2]

/-- One side of what is drawn: from `b` on, `n` long, of a box `w` long. -/
structure Side (o e w : Int) (limit dim b n : Nat) : Prop where
  pos : 0 < e ∧ e < 0x80000000
  inside : o < limit
  bounds : 0 < limit ∧ limit ≤ 2048
  start : (b : Int) = max o 0
  extent : (0x80000000 ≤ o + e ∧ w = e) ∨ (o + e < 0x80000000 ∧ w = min (o + e) limit - max o 0)
  drawn : n = min w.toNat (dim - b)

section Sides

variable {o e w : Int} {limit dim b n : Nat}

theorem Side.mem (hs : Side o e w limit dim b n) {x : Nat} (hx : x < limit) :
    (b ≤ x ∧ x < b + n) ↔ (o ≤ x ∧ x < o + e) ∧ x < dim := by
  have hbox : (b ≤ x ∧ x < b + n) ↔ ((b : Int) ≤ x ∧ x < b + w) ∧ x < dim := by
    have hn := hs.drawn
    omega
  rw [hbox, extent_mem hs.pos.2 hs.start hs.extent hx]

theorem Side.lt (hs : Side o e w limit dim b n) : b < limit := by
  have hb := hs.start
  have ho := hs.inside
  have hlimit := hs.bounds
  omega

/-- Past 2^31 the whole length is drawn, and the start is not cut off. -/
theorem Side.whole (hs : Side o e w limit dim b n) (hover : 0x80000000 ≤ o + e) (hdim : limit < dim) :
    ((b + n : Nat) : Int) = min (dim : Int) (o + e) := by
  have hw : w = e := by
    have := hs.extent
    omega
  have hb : (b : Int) = o := by
    have := hs.start
    have := hs.pos
    omega
  have hn := hs.drawn
  have hlt := hs.lt
  have hpos := hs.pos
  omega

theorem Side.past (hs : Side o e w limit dim b n) (hover : 0x80000000 ≤ o + e) (hdim : limit < dim) :
    b ≤ limit ∧ limit < b + n := by
  have hlt := hs.lt
  have hwhole := hs.whole hover hdim
  have hlimit := hs.bounds
  omega

theorem Side.some (hs : Side o e w limit dim b n) (hdim : max o 0 < dim) (hend : 0 < o + e) : b ≤ b ∧ b < b + n := by
  have hb := hs.start
  have hmem := hs.mem hs.lt
  have hpos := hs.pos
  omega

theorem Side.seen (hs : Side o e w limit dim b n) {x : Nat} (hx : b ≤ x ∧ x < b + n) :
    max o 0 < dim ∧ 0 < o + e := by
  have hmem := (hs.mem hs.lt).1 ⟨Nat.le_refl b, by omega⟩
  omega

theorem Side.within (hs : Side o e w limit dim b n) (hno : ¬ (0x80000000 ≤ o + e ∧ limit < dim)) :
    b + n ≤ limit ∨ n = 0 := by
  have hn := hs.drawn
  have hb := hs.start
  by_cases hover : 0x80000000 ≤ o + e
  · omega
  · have hw : w = min (o + e) limit - max o 0 := by
      have := hs.extent
      omega
    omega

end Sides

theorem Clipped.columns (hw : win.Sound) (hr : r.Valid) {box : Rect} (hc : Clipped win r box) {bx : Nat}
    (hbx : box.x = bx) : Side r.x r.w box.w win.w fb.width bx (min box.w.toNat (fb.width - bx)) :=
  ⟨⟨hc.pos.1, hr.w.2⟩, hc.inside.1, hw.width, hbx ▸ hc.x, hc.w, rfl⟩

theorem Clipped.rows (hw : win.Sound) (hr : r.Valid) {box : Rect} (hc : Clipped win r box) {dy : Nat}
    (hby : box.y = dy) : Side r.y r.h box.h win.h fb.height dy (min box.h.toNat (fb.height - dy)) :=
  ⟨⟨hc.pos.2, hr.h.2⟩, hc.inside.2, ⟨hw.height.1, Nat.le_trans hw.height.2 (by decide)⟩, hby ▸ hc.y, hc.h, rfl⟩

/-- The rectangle, the window and the screen have what is shown in common,
exactly when neither end of the rectangle runs past 2^31 and over. -/
theorem rows_show_iff (hw : win.Sound) (hr : r.Valid) {box : Rect} (hc : Clipped win r box) {bx dy : Nat}
    (hbx : box.x = bx) (hby : box.y = dy) :
    (RowsHold win bx dy (min box.w.toNat (fb.width - bx)) (min box.h.toNat (fb.height - dy)) ∧
      Shows win fb phys r (boxPuts win phys bx dy (min box.w.toNat (fb.width - bx))
        (min box.h.toNat (fb.height - dy)))) ↔ ¬ Overruns win fb r := by
  have hcol := @Clipped.columns win fb r hw hr box hc bx hbx
  have hrow := @Clipped.rows win fb r hw hr box hc dy hby
  revert hcol hrow
  generalize min box.w.toNat (fb.width - bx) = cols
  generalize min box.h.toNat (fb.height - dy) = rows
  intro hcol hrow
  constructor
  · rintro ⟨hhold, hshow⟩ ⟨-, ⟨hover, hwide, hdim, hend⟩ | ⟨hover, hbelow, hseen | hlast⟩⟩
    · -- The pixel right of the window, in the first row.
      have hmem : (⟨win.w, dy, (win.buffer phys).rd32 ((dy * win.stride + win.w) * 4)⟩ : Put) ∈
          boxPuts win phys bx dy cols rows :=
        mem_boxPuts.2 ⟨hcol.past hover hwide, hrow.some hdim hend, rfl⟩
      exact Nat.lt_irrefl _ ((hshow _ _ _).1 hmem).2.1.1
    · -- The pixel below the window, in the first column.
      have hmem : (⟨bx, win.h, (win.buffer phys).rd32 ((win.h * win.stride + bx) * 4)⟩ : Put) ∈
          boxPuts win phys bx dy cols rows :=
        mem_boxPuts.2 ⟨hcol.some hseen.1 hseen.2, hrow.past hover hbelow, rfl⟩
      exact Nat.lt_irrefl _ ((hshow _ _ _).1 hmem).2.1.2
    · have hpast := hrow.past hover hbelow
      have hwhole := hrow.whole hover hbelow
      have hframe := (hhold (rows - 1) (by omega)).1
      have hend : ((dy + (rows - 1) : Nat) : Int) = min (fb.height : Int) (r.y + r.h) - 1 := by omega
      have hlast' : lastFrame win fb r = (((dy + (rows - 1)) * win.stride + bx) * 4 / PAGE64_SIZE : Nat) := by
        rw [lastFrame, ← hend, ← hcol.start, hw.stride, frame_cast]
      rw [hlast'] at hlast
      exact absurd (Int.ofNat_le.1 hlast) (Nat.not_le.2 hframe)
  · intro hno
    have hpart : 0 < r.w ∧ 0 < r.h ∧ r.x < win.w ∧ r.y < win.h :=
      ⟨hcol.pos.1, hrow.pos.1, hcol.inside, hrow.inside⟩
    -- What is looked at of a row that is drawn is in the window.
    have hcolumns : ∀ y, dy ≤ y → y < dy + rows → bx + cols ≤ win.w ∨ cols = 0 := fun y h₁ h₂ =>
      hcol.within fun hrun => hno ⟨hpart, .inl ⟨hrun.1, hrun.2, hrow.seen ⟨h₁, h₂⟩⟩⟩
    have hrowsin : (dy + rows ≤ win.h ∨ rows = 0) ∨ (0x80000000 ≤ r.y + r.h ∧ win.h < fb.height) ∧
        cols = 0 ∧ lastFrame win fb r < win.frames.length := by
      by_cases hrun : 0x80000000 ≤ r.y + r.h ∧ win.h < fb.height
      · have hnone : cols = 0 := by
          by_contra hsome
          exact hno ⟨hpart, .inr ⟨hrun.1, hrun.2, .inl (hcol.seen ⟨Nat.le_refl bx, by omega⟩)⟩⟩
        exact .inr ⟨hrun, hnone, Int.not_le.1 fun hs => hno ⟨hpart, .inr ⟨hrun.1, hrun.2, .inr hs⟩⟩⟩
      · exact .inl (hrow.within hrun)
    refine ⟨fun i hi => ?_, fun x y c => ?_⟩
    · by_cases hin : dy + i < win.h
      · refine ⟨hw.frame_lt hcol.lt hin, fun j hj => ?_⟩
        have := hcolumns (dy + i) (by omega) (by omega)
        rw [Nat.add_assoc]
        exact hw.frame_lt (by omega) hin
      · obtain (hlow | hlow) | ⟨hrun, hnocols, hlast⟩ := hrowsin
        · omega
        · omega
        · refine ⟨?_, fun j hj => by omega⟩
          have hle : (((dy + i) * win.stride + bx) * 4 / PAGE64_SIZE : Nat) ≤ lastFrame win fb r := by
            rw [lastFrame, ← hcol.start, hw.stride, frame_cast, Int.natCast_add]
            refine Int.ediv_le_ediv (by decide) ?_
            have hend := hrow.whole hrun.1 hrun.2
            have : ((dy : Int) + i) * win.w ≤ (min (fb.height : Int) (r.y + r.h) - 1) * win.w :=
              Int.mul_le_mul_of_nonneg_right (by omega) (by omega)
            omega
          exact Int.ofNat_lt.1 (Int.lt_of_le_of_lt hle hlast)
    · rw [mem_boxPuts, Window.pixel, hw.stride, Rect.Has]
      constructor
      · rintro ⟨hxin, hyin, hcolor⟩
        have hyh : y < win.h := by
          obtain (hlow | hlow) | ⟨-, hnocols, -⟩ := hrowsin
          · omega
          · omega
          · omega
        have hxw : x < win.w := by
          have := hcolumns y hyin.1 hyin.2
          omega
        have hxs := (hcol.mem hxw).1 hxin
        have hys := (hrow.mem hyh).1 hyin
        exact ⟨⟨hxs.1, hys.1⟩, ⟨hxw, hyh⟩, ⟨hxs.2, hys.2⟩, hcolor⟩
      · rintro ⟨⟨hxin, hyin⟩, hwin, hscreen, hcolor⟩
        exact ⟨(hcol.mem hwin.1).2 ⟨hxin, hscreen.1⟩, (hrow.mem hwin.2).2 ⟨hyin, hscreen.2⟩, hcolor⟩

end Shown

/-- Whatever the rectangle and the screen: the visible part of the rectangle is
shown, and no frame is looked at that the window does not have, exactly when
neither end of the rectangle wraps on a screen that is larger than the window. -/
theorem damage_shows_iff {win : Window} {fb : Screen} {r : Rect} (phys : Mem) (hw : win.Sound) (hfb : fb.Valid)
    (hr : r.Valid) :
    (∃ log, wmdev64Damage (some win) fb phys (some r) = .ok (0, log) ∧ Shows win fb phys r log) ↔
      ¬ Overruns win fb r := by
  unfold wmdev64Damage
  simp only [hfb.ready, Bool.not_true, Bool.false_eq_true, if_false]
  rcases clip_cases hw hr with ⟨hnone, hout⟩ | ⟨box, hbox, hclip⟩
  · rw [hnone]
    constructor
    · rintro - ⟨⟨h₁, h₂, h₃, h₄⟩, -⟩
      exact hout ⟨⟨h₁, h₂⟩, h₃, h₄⟩
    · intro _
      refine ⟨[], rfl, fun x y c => ⟨by simp, ?_⟩⟩
      rintro ⟨⟨hx, hy⟩, hin, -⟩
      exact absurd ⟨⟨by omega, by omega⟩, by omega, by omega⟩ hout
  · have hbx : box.x = (max r.x 0).toNat := by
      rw [hclip.x]
      omega
    have hby : box.y = (max r.y 0).toNat := by
      rw [hclip.y]
      omega
    have hwide := hclip.w
    have hhigh := hclip.h
    obtain ⟨hrx, hry, hrw, hrh⟩ := hr
    have hcols : (max r.x 0).toNat + box.w.toNat < 0x100000000 := by omega
    have hrows : (max r.y 0).toNat + 0 + box.h.toNat < 0x100000000 := by omega
    rw [hbox]
    have hloops := @damageRows_eq win fb phys _ _ _ _ _ hfb.ready hbx hby hcols hrows []
    rw [Nat.add_zero, List.nil_append] at hloops
    simp only [hloops]
    rw [← @rows_show_iff win fb phys r hw ⟨hrx, hry, hrw, hrh⟩ _ hclip _ _ hbx hby]
    constructor
    · rintro ⟨log, heq, hshow⟩
      by_cases hhold : RowsHold win (max r.x 0).toNat (max r.y 0).toNat (min box.w.toNat (fb.width - (max r.x 0).toNat))
          (min box.h.toNat (fb.height - (max r.y 0).toNat))
      · rw [if_pos hhold] at heq
        cases heq
        exact ⟨hhold, hshow⟩
      · rw [if_neg hhold] at heq
        cases heq
    · rintro ⟨hhold, hshow⟩
      refine ⟨_, ?_, hshow⟩
      rw [if_pos hhold]
      rfl

/-! ### A window of two pixels -/

def twoPixels : Window := { w := 2, h := 1, stride := 2, capH := 1, bytes := 4096, frames := [0x1000] }

def fourByOne : Screen := { ready := true, width := 4, height := 1 }

def black : Mem := fun _ => 0

theorem twoPixels_sound : twoPixels.Sound :=
  wmdev64Create_sound (show wmdev64Create 2 1 true (fun _ => 0x1000) = .ok twoPixels from rfl)

/-- A rectangle that sticks out on both sides is clipped, and shown. -/
theorem damage_shows_twoPixels :
    ∃ log, wmdev64Damage (some twoPixels) fourByOne black (some ⟨-1, 0, 4, 1⟩) = .ok (0, log) ∧
      Shows twoPixels fourByOne black ⟨-1, 0, 4, 1⟩ log := by
  refine (damage_shows_iff black twoPixels_sound ⟨rfl, by decide, by decide⟩
    ⟨by decide, by decide, by decide, by decide⟩).mpr ?_
  rintro ⟨-, ⟨hfar, -⟩ | ⟨hfar, -⟩⟩ <;> exact absurd hfar (by decide)

/-- From the second pixel on as wide as can be: the row goes on to the end of
the screen. -/
theorem damage_past_the_window :
    ¬ ∃ log, wmdev64Damage (some twoPixels) fourByOne black (some ⟨1, 0, 0x7FFFFFFF, 1⟩) = .ok (0, log) ∧
      Shows twoPixels fourByOne black ⟨1, 0, 0x7FFFFFFF, 1⟩ log := by
  rintro ⟨log, heq, hshow⟩
  cases heq
  have := ((hshow 2 0 0).1 (by decide)).2.1.1
  exact absurd this (by decide)

end NovarisOS.Wmdev64
