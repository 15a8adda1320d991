/-
NovarisOS.Loader64.Stack — `uspace64_build_stack` of `kernel/uspace64.c`, what
a program finds on its stack when it starts.

The strings are laid down from the top, the last one first, and the words
below them: the count of the arguments, the pointers to the arguments, the
pointers to the environment, the auxiliary vector. Each list is cut to the
sixteen pointers that `argv_va` and `env_va` have room for.
-/
import Mathlib.Tactic.IntervalCases
import NovarisOS.Loader64.Elf

namespace NovarisOS.Loader64

/-- A string of C without its NUL. -/
abbrev Text := List UInt8

namespace Stack

abbrev AT_NULL : Nat := 0
abbrev AT_PHDR : Nat := 3
abbrev AT_PHENT : Nat := 4
abbrev AT_PHNUM : Nat := 5
abbrev AT_PAGESZ : Nat := 6
abbrev AT_BASE : Nat := 7
abbrev AT_FLAGS : Nat := 8
abbrev AT_ENTRY : Nat := 9
abbrev AT_UID : Nat := 11
abbrev AT_EUID : Nat := 12
abbrev AT_GID : Nat := 13
abbrev AT_EGID : Nat := 14
abbrev AT_HWCAP : Nat := 16
abbrev AT_CLKTCK : Nat := 17
abbrev AT_SECURE : Nat := 23
abbrev AT_RANDOM : Nat := 25

/-- The entries of `argv_va` and of `env_va`. -/
abbrev POINTERS : Nat := 16

/-- Strings laid down: where the last write was, where each one is, and the
memory. -/
structure Laid where
  p : Nat
  va : List Nat
  mem : Mem

/-- The loop over the strings, from the last one to the first. -/
def layStrings : List Text → Nat → Mem → Laid
  | [], p, m => ⟨p, [], m⟩
  | s :: ss, p, m =>
    let r := layStrings ss p m
    let l := s.length + 1
    ⟨r.p - l, (r.p - l) :: r.va, r.mem.copyAt (r.p - l) (fun i => s.getD i 0) l⟩

/-- `*v++ = w` for each word. -/
def layWords : List Nat → Nat → Mem → Mem
  | [], _, m => m
  | w :: ws, v, m => layWords ws (v + 8) (m.wr64 v w)

/-- The auxiliary vector before AT_NULL. -/
def auxv (elf : Elf.Info) (interpBase randomVa : Nat) : List (Nat × Nat) :=
  [(AT_PHDR, elf.phdrVa), (AT_PHENT, elf.phent), (AT_PHNUM, elf.phnum), (AT_PAGESZ, PAGE64_SIZE),
    (AT_BASE, interpBase), (AT_FLAGS, 0), (AT_ENTRY, elf.entry), (AT_UID, 0), (AT_EUID, 0), (AT_GID, 0),
    (AT_EGID, 0), (AT_SECURE, 0), (AT_CLKTCK, 100), (AT_HWCAP, 0), (AT_RANDOM, randomVa)]

/-- The words from `rsp` on. -/
def stackWords (argvVa envVa : List Nat) (aux : List (Nat × Nat)) : List Nat :=
  argvVa.length :: argvVa ++ 0 :: envVa ++ 0 :: (aux.flatMap fun x => [x.1, x.2]) ++ [AT_NULL, 0]

/-- `x & ~15`. -/
def align16 (x : Nat) : Nat := x / 16 * 16

/-- `uspace64_build_stack`: where `rsp` is, and the memory of the space. -/
def buildStack (stackTop : Nat) (argv envp : List Text) (elf : Elf.Info) (interpBase : Nat) (m : Mem) : Nat × Mem :=
  let randomVa := stackTop - 16
  let m := m.copyAt randomVa (fun i => UInt8.ofNat (0x5A + i * 7)) 16
  let args := layStrings (argv.take POINTERS) randomVa m
  let envs := layStrings (envp.take POINTERS) args.p args.mem
  let n := 3 + args.va.length + envs.va.length + 2 * 16
  let rsp := align16 (align16 envs.p - n * 8)
  (rsp, layWords (stackWords args.va envs.va (auxv elf interpBase randomVa)) rsp envs.mem)

/-! ## What a program expects -/

/-- The string `s` is at `a`, between `low` and `high`. -/
def HasText (m : Mem) (low high a : Nat) (s : Text) : Prop :=
  low ≤ a ∧ a + (s.length + 1) ≤ high ∧ m.bytes a (s.length + 1) = s ++ [0]

/-- The words from `v` on point to the strings, and a null ends them. -/
def PointsTo (m : Mem) (low high v : Nat) (ss : List Text) : Prop :=
  (∀ i (h : i < ss.length), HasText m low high (m.rd64 (v + 8 * i)) ss[i]) ∧ m.rd64 (v + 8 * ss.length) = 0

/-- There is an auxiliary vector at `v`, and it ends with AT_NULL. -/
def HasAuxv (m : Mem) (high v : Nat) : Prop :=
  ∃ n, (∀ i < n, m.rd64 (v + 16 * i) ≠ AT_NULL) ∧ m.rd64 (v + 16 * n) = AT_NULL ∧ v + 16 * (n + 1) ≤ high

/-- A stack between `low` and `high` on which `rsp` is what a program starts
with. -/
structure Holds (m : Mem) (low high rsp : Nat) (argv envp : List Text) : Prop where
  aligned : rsp % 16 = 0
  inside : low ≤ rsp
  argc : m.rd64 rsp = argv.length
  args : PointsTo m low high (rsp + 8) argv
  envs : PointsTo m low high (rsp + 8 * (argv.length + 2)) envp
  auxv : HasAuxv m high (rsp + 8 * (argv.length + envp.length + 3))

/-! ## Words -/

section Words

variable {m : Mem} {v i : Nat} {ws : List Nat}

theorem layWords_outside (h : i < v ∨ v + 8 * ws.length ≤ i) : layWords ws v m i = m i := by
  induction ws generalizing v m with
  | nil => rfl
  | cons w ws ih =>
    simp only [List.length_cons] at h
    rw [layWords, ih (by omega), Mem.wr64_outside (by omega)]

theorem rd64_layWords {w : Nat} (h : ws[i]? = some w) (hw : w < 0x10000000000000000) :
    (layWords ws v m).rd64 (v + 8 * i) = w := by
  induction ws generalizing v m i with
  | nil => simp at h
  | cons x ws ih =>
    cases i with
    | zero =>
      obtain rfl : x = w := by simpa using h
      have hkeep : (layWords ws (v + 8) (m.wr64 v x)).rd64 v = (m.wr64 v x).rd64 v :=
        Mem.rd64_congr fun j _ _ => layWords_outside (by omega)
      simp [layWords, hkeep, Mem.rd64_wr64, Nat.mod_eq_of_lt hw]
    | succ i =>
      rw [layWords, show v + 8 * (i + 1) = v + 8 + 8 * i by omega]
      exact ih (by simpa using h)

end Words

/-! ## Strings -/

section Strings

variable {m : Mem} {p : Nat} {ss : List Text}

/-- The bytes that strings take, their NULs included. -/
def bytesOf (ss : List Text) : Nat := (ss.map fun s => s.length + 1).sum

@[simp] theorem bytesOf_cons (s : Text) (ss : List Text) : bytesOf (s :: ss) = s.length + 1 + bytesOf ss := rfl

theorem bytesOf_le {k : Nat} (hs : ∀ s ∈ ss, s.length < k) : bytesOf ss ≤ ss.length * k := by
  induction ss with
  | nil => simp [bytesOf]
  | cons s ss ih =>
    have hs₁ := hs s (by simp)
    have hss := ih fun t ht => hs t (by simp [ht])
    rw [bytesOf_cons, List.length_cons, Nat.succ_mul]
    omega

theorem bytes_of_agree {m' : Mem} {a n : Nat} (h : ∀ i, a ≤ i → i < a + n → m' i = m i) :
    m'.bytes a n = m.bytes a n := by
  apply List.map_congr_left
  intro i hi
  have hin := List.mem_range.1 hi
  exact h (a + i) (by omega) (by omega)

theorem bytes_copyAt (s : Text) (a : Nat) :
    (m.copyAt a (fun i => s.getD i 0) (s.length + 1)).bytes a (s.length + 1) = s ++ [0] := by
  apply List.ext_getElem
  · simp
  · intro i h₁ h₂
    have hi : i < s.length + 1 := by simpa using h₁
    rw [Mem.getElem_bytes, Mem.copyAt_inside (by omega) (by omega), Nat.add_sub_cancel_left]
    rcases Nat.lt_or_ge i s.length with hlt | hge
    · simp [hlt, List.getElem_append_left]
    · obtain rfl : i = s.length := by omega
      simp

theorem HasText.mono {m' : Mem} {low high low' high' a : Nat} {s : Text}
    (h : HasText m low high a s) (hlow : low' ≤ low)
    (hhigh : high ≤ high') (hm : ∀ i, low ≤ i → i < high → m' i = m i) : HasText m' low' high' a s := by
  obtain ⟨h₁, h₂, h₃⟩ := h
  refine ⟨by omega, by omega, ?_⟩
  rw [← h₃]
  exact bytes_of_agree fun i _ _ => hm i (by omega) (by omega)

/-- What the loop over the strings leaves. -/
structure Laid.Holds (r : Laid) (ss : List Text) (p : Nat) (m : Mem) : Prop where
  room : r.p + bytesOf ss = p
  length : r.va.length = ss.length
  same : ∀ i, i < r.p ∨ p ≤ i → r.mem i = m i
  text : ∀ i (h : i < ss.length), ∃ a, r.va[i]? = some a ∧ HasText r.mem r.p p a ss[i]

theorem layStrings_holds (m : Mem) (h : bytesOf ss ≤ p) : (layStrings ss p m).Holds ss p m := by
  induction ss with
  | nil => exact ⟨rfl, rfl, fun _ _ => rfl, fun i hi => absurd hi (by simp)⟩
  | cons s ss ih =>
    rw [bytesOf_cons] at h
    obtain ⟨hroom, hlen, hsame, htext⟩ := ih (by omega)
    rw [layStrings]
    generalize layStrings ss p m = r at *
    refine ⟨by simp only [bytesOf_cons]; omega, by simp [hlen], fun i hi => ?_, fun i hi => ?_⟩
    · dsimp only at hi ⊢
      rw [Mem.copyAt_outside (by omega)]
      exact hsame i (by omega)
    · cases i with
      | zero => exact ⟨_, rfl, Nat.le_refl _, by simp only [List.getElem_cons_zero]; omega, bytes_copyAt s _⟩
      | succ i =>
        obtain ⟨a, ha, hhas⟩ := htext i (by simpa using hi)
        refine ⟨a, by simpa using ha, ?_⟩
        have hkeep : ∀ j, r.p ≤ j → j < p →
            r.mem.copyAt (r.p - (s.length + 1)) (fun i => s.getD i 0) (s.length + 1) j = r.mem j :=
          fun j _ _ => Mem.copyAt_outside (by omega)
        exact hhas.mono (Nat.sub_le _ _) (Nat.le_refl _) hkeep

theorem Laid.Holds.va_lt {r : Laid} (h : r.Holds ss p m) {a : Nat} (ha : a ∈ r.va) : a < p := by
  obtain ⟨i, hi, hget⟩ := List.getElem_of_mem ha
  obtain ⟨b, hb, _, hend, _⟩ := h.text i (h.length ▸ hi)
  rw [List.getElem?_eq_getElem hi, hget] at hb
  cases hb
  omega

end Strings

/-! ## The whole stack -/

section Whole

variable {low top interpBase : Nat} {argv envp : List Text} {elf : Elf.Info} {m : Mem}

/-- The words that are below the strings. -/
def wordsRoom : Nat := 16 + 8 * (35 + 2 * POINTERS) + 32

/-- The strings that are carried, and the words, are between `low` and `top`. -/
def Fits (low top : Nat) (argv envp : List Text) : Prop :=
  low + bytesOf (argv.take POINTERS) + bytesOf (envp.take POINTERS) + wordsRoom ≤ top ∧ top < 0x10000000000000000

theorem length_auxWords (elf : Elf.Info) (interpBase randomVa : Nat) :
    ((auxv elf interpBase randomVa).flatMap fun x => [x.1, x.2]).length = 30 := rfl

theorem align16_le (x : Nat) : align16 x ≤ x := Nat.div_mul_le_self x 16

theorem lt_align16 (x : Nat) : x < align16 x + 16 := by
  rw [align16]
  omega

theorem align16_mod (x : Nat) : align16 x % 16 = 0 := Nat.mul_mod_left _ _

theorem auxv_types (argvVa envVa : List Nat) (elf : Elf.Info) (interpBase randomVa i : Nat) (h : i ≤ 15) :
    ∃ t, (stackWords argvVa envVa (auxv elf interpBase randomVa))[argvVa.length + envVa.length + 3 + 2 * i]? = some t ∧
      t < 0x10000000000000000 ∧ (t = AT_NULL ↔ i = 15) := by
  have hsplit : stackWords argvVa envVa (auxv elf interpBase randomVa) =
      (argvVa.length :: argvVa ++ 0 :: envVa ++ [0]) ++
        (((auxv elf interpBase randomVa).flatMap fun x => [x.1, x.2]) ++ [AT_NULL, 0]) := by
    simp [stackWords]
  rw [hsplit, List.getElem?_append_right (by simp; omega)]
  simp only [List.length_append, List.length_cons, List.length_nil]
  rw [show argvVa.length + envVa.length + 3 + 2 * i -
      (argvVa.length + 1 + (envVa.length + 1) + (0 + 1)) = 2 * i by omega]
  interval_cases i <;> exact ⟨_, rfl, Nat.le_of_ble_eq_true rfl, by simp⟩

section Indices

variable (argvVa envVa : List Nat) (aux : List (Nat × Nat))

theorem stackWords_argc : (stackWords argvVa envVa aux)[0]? = some argvVa.length := by
  simp [stackWords]

theorem stackWords_arg {i a : Nat} (h : argvVa[i]? = some a) : (stackWords argvVa envVa aux)[1 + i]? = some a := by
  obtain ⟨hi, rfl⟩ := List.getElem?_eq_some_iff.1 h
  simp [stackWords, Nat.add_comm 1 i, List.getElem?_append_left hi]

theorem stackWords_argsEnd : (stackWords argvVa envVa aux)[1 + argvVa.length]? = some 0 := by
  simp [stackWords, Nat.add_comm 1 argvVa.length]

theorem stackWords_env {i a : Nat} (h : envVa[i]? = some a) :
    (stackWords argvVa envVa aux)[argvVa.length + 2 + i]? = some a := by
  obtain ⟨hi, rfl⟩ := List.getElem?_eq_some_iff.1 h
  have hsplit : stackWords argvVa envVa aux = (argvVa.length :: argvVa ++ [0]) ++
      (envVa ++ 0 :: (aux.flatMap fun x => [x.1, x.2]) ++ [AT_NULL, 0]) := by simp [stackWords]
  rw [hsplit, List.getElem?_append_right (by simp)]
  simp [List.getElem?_append_left hi]

theorem stackWords_envsEnd : (stackWords argvVa envVa aux)[argvVa.length + 2 + envVa.length]? = some 0 := by
  have hsplit : stackWords argvVa envVa aux = (argvVa.length :: argvVa ++ 0 :: envVa) ++
      (0 :: (aux.flatMap fun x => [x.1, x.2]) ++ [AT_NULL, 0]) := by simp [stackWords]
  have hlen : (argvVa.length :: argvVa ++ 0 :: envVa).length = argvVa.length + 2 + envVa.length := by
    simp
    omega
  rw [hsplit, List.getElem?_append_right (Nat.le_of_eq hlen), hlen]
  simp

end Indices

theorem holds_of_laid {args envs : Laid} {rsp randomVa : Nat} {as es : List Text} {m' : Mem}
    (hargs : args.Holds as randomVa m') (henvs : envs.Holds es args.p args.mem)
    (hmod : rsp % 16 = 0) (hlow : low ≤ rsp)
    (hbelow : rsp + 8 * (as.length + es.length + 35) ≤ envs.p) (hrandom : randomVa ≤ top)
    (htop : top < 0x10000000000000000) :
    Holds (layWords (stackWords args.va envs.va (auxv elf interpBase randomVa)) rsp envs.mem) low top rsp as es := by
  have hargs₁ := hargs.room
  have henvs₁ := henvs.room
  have hlenA := hargs.length
  have hlenE := henvs.length
  set aux := auxv elf interpBase randomVa with haux
  have hlength : (stackWords args.va envs.va aux).length = as.length + es.length + 35 := by
    simp [stackWords, haux, auxv, hlenA, hlenE]
    omega
  have hmem : ∀ i, envs.p ≤ i → layWords (stackWords args.va envs.va aux) rsp envs.mem i = envs.mem i :=
    fun i hi => layWords_outside (by omega)
  have hword : ∀ i w, (stackWords args.va envs.va aux)[i]? = some w → w < 0x10000000000000000 →
      (layWords (stackWords args.va envs.va aux) rsp envs.mem).rd64 (rsp + 8 * i) = w :=
    fun i w h hw => rd64_layWords h hw
  -- a pointer to a string above the words
  have hpoints : ∀ (v lo hi i a : Nat) (t : Text), rsp + 8 * i = v →
      (stackWords args.va envs.va aux)[i]? = some a → a < top → envs.p ≤ lo → hi ≤ top → HasText envs.mem lo hi a t →
      HasText (layWords (stackWords args.va envs.va aux) rsp envs.mem) low top
        ((layWords (stackWords args.va envs.va aux) rsp envs.mem).rd64 v) t := by
    intro v lo hi i a t hv ha hlt hlo hhi htext
    rw [← hv, hword i a ha (by omega)]
    exact htext.mono (by omega) hhi fun j h₁ _ => hmem j (by omega)
  have hauxv : rsp + 8 * (as.length + es.length + 3) + 16 * (15 + 1) ≤ top :=
    calc rsp + 8 * (as.length + es.length + 3) + 16 * (15 + 1)
        = rsp + 8 * (as.length + es.length + 35) := by omega
      _ ≤ envs.p := hbelow
      _ ≤ top := by omega
  refine ⟨hmod, hlow, ?_, ⟨fun i hi => ?_, ?_⟩, ⟨fun i hi => ?_, ?_⟩, 15, fun i hi => ?_, ?_, hauxv⟩
  · rw [← hlenA]
    exact hword 0 _ (stackWords_argc _ _ _) (by omega)
  · obtain ⟨a, ha, htext⟩ := hargs.text i hi
    have hsame : ∀ j, args.p ≤ j → j < randomVa → envs.mem j = args.mem j := fun j h₁ _ => henvs.same j (.inr h₁)
    exact hpoints _ args.p randomVa (1 + i) a _ (by omega) (stackWords_arg _ _ _ ha)
      (Nat.lt_of_lt_of_le (hargs.va_lt (List.mem_of_getElem? ha)) hrandom) (by omega) hrandom
      (htext.mono (Nat.le_refl _) (Nat.le_refl _) hsame)
  · rw [← hlenA, show rsp + 8 + 8 * args.va.length = rsp + 8 * (1 + args.va.length) by omega]
    exact hword _ _ (stackWords_argsEnd _ _ _) (by omega)
  · obtain ⟨a, ha, htext⟩ := henvs.text i hi
    exact hpoints _ envs.p args.p (args.va.length + 2 + i) a _ (by omega) (stackWords_env _ _ _ ha)
      (Nat.lt_of_lt_of_le (henvs.va_lt (List.mem_of_getElem? ha)) (by omega)) (Nat.le_refl _) (by omega) htext
  · rw [← hlenA, ← hlenE, show rsp + 8 * (args.va.length + 2) + 8 * envs.va.length =
      rsp + 8 * (args.va.length + 2 + envs.va.length) by omega]
    exact hword _ _ (stackWords_envsEnd _ _ _) (by omega)
  · obtain ⟨t, ht, hlt, hnull⟩ := auxv_types args.va envs.va elf interpBase randomVa i (by omega)
    rw [← hlenA, ← hlenE, show rsp + 8 * (args.va.length + envs.va.length + 3) + 16 * i =
      rsp + 8 * (args.va.length + envs.va.length + 3 + 2 * i) by omega, hword _ t ht hlt]
    omega
  · obtain ⟨t, ht, hlt, hnull⟩ := auxv_types args.va envs.va elf interpBase randomVa 15 (by omega)
    rw [← hlenA, ← hlenE, show rsp + 8 * (args.va.length + envs.va.length + 3) + 16 * 15 =
      rsp + 8 * (args.va.length + envs.va.length + 3 + 2 * 15) by omega, hword _ t ht hlt]
    exact hnull.2 rfl

theorem rsp_room {p n : Nat} (h : 8 * n + 16 ≤ p) :
    p ≤ align16 (align16 p - n * 8) + 8 * n + 32 ∧ align16 (align16 p - n * 8) + 8 * n ≤ p := by
  have h₁ := align16_le p
  have h₂ := lt_align16 p
  have h₃ := align16_le (align16 p - n * 8)
  have h₄ := lt_align16 (align16 p - n * 8)
  omega

theorem buildStack_holds (hfit : Fits low top argv envp) :
    Holds (buildStack top argv envp elf interpBase m).2 low top (buildStack top argv envp elf interpBase m).1
      (argv.take POINTERS) (envp.take POINTERS) := by
  obtain ⟨hroom, htop⟩ := hfit
  rw [wordsRoom] at hroom
  have hargs := @layStrings_holds (top - 16) (argv.take POINTERS)
    (m.copyAt (top - 16) (fun i => UInt8.ofNat (0x5A + i * 7)) 16) (by omega)
  unfold buildStack
  dsimp only
  generalize layStrings (argv.take POINTERS) (top - 16) _ = args at *
  have hargs₁ := hargs.room
  have henvs := @layStrings_holds args.p (envp.take POINTERS) args.mem (by omega)
  generalize layStrings (envp.take POINTERS) args.p args.mem = envs at *
  have henvs₁ := henvs.room
  have hnargs : (argv.take POINTERS).length ≤ POINTERS := List.length_take_le _ _
  have hnenvs : (envp.take POINTERS).length ≤ POINTERS := List.length_take_le _ _
  have hn : 3 + args.va.length + envs.va.length + 2 * 16 = (argv.take POINTERS).length +
      (envp.take POINTERS).length + 35 := by
    rw [hargs.length, henvs.length]
    omega
  rw [hn]
  generalize argv.take POINTERS = as at *
  generalize envp.take POINTERS = es at *
  obtain ⟨habove, hbelow⟩ := @rsp_room envs.p (as.length + es.length + 35) (by omega)
  exact holds_of_laid hargs henvs (align16_mod _) (by omega) hbelow (Nat.sub_le _ _) htop

theorem PointsTo.length_le {v : Nat} {ss ss' : List Text} (h : PointsTo m low top v ss) (h' : PointsTo m low top v ss')
    (hlow : 0 < low) : ss'.length ≤ ss.length := by
  by_contra hlt
  have hnull := h.2
  have htext := (h'.1 ss.length (by omega)).1
  omega

theorem Holds.unique {rsp : Nat} {argv' envp' : List Text} (h : Holds m low top rsp argv envp)
    (h' : Holds m low top rsp argv' envp') (hlow : 0 < low) :
    argv.length = argv'.length ∧ envp.length = envp'.length := by
  have hargc : argv.length = argv'.length := h.argc.symm.trans h'.argc
  have henvs := h'.envs
  rw [← hargc] at henvs
  exact ⟨hargc, Nat.le_antisymm (henvs.length_le h.envs hlow) (h.envs.length_le henvs hlow)⟩

theorem buildStack_holds_iff (hfit : Fits low top argv envp) (hlow : 0 < low) :
    Holds (buildStack top argv envp elf interpBase m).2 low top
      (buildStack top argv envp elf interpBase m).1 argv envp ↔
      argv.length ≤ POINTERS ∧ envp.length ≤ POINTERS := by
  have hcut := @buildStack_holds low top interpBase argv envp elf m hfit
  constructor
  · intro h
    have hlen := h.unique hcut hlow
    simp only [List.length_take] at hlen
    omega
  · rintro ⟨h₁, h₂⟩
    rwa [List.take_of_length_le h₁, List.take_of_length_le h₂] at hcut

end Whole

end Stack

end NovarisOS.Loader64
