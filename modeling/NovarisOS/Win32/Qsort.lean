/-
NovarisOS.Win32.Qsort — qsort and bsearch: `kernel/win32_msvcrt.c`.

The comparator runs in ring 3, through `win32_callback_call`. Here that is a
parameter: what a call of a function with two arguments answers, `none` where
the kernel could not call it, and what it leaves of the memory and of the rest
of the program's world. The program's stack pointer is part of that world.
-/
import NovarisOS.Lib.Mem

namespace NovarisOS.Win32

/-- `win32_callback_call` with two arguments. -/
abbrev Callback (σ : Type) := (fn a b : Nat) → Mem → σ → Option Nat × Mem × σ

/-- The program, and what has been asked of it. -/
structure Env (σ : Type) where
  mem : Mem
  world : σ
  asked : List (Nat × Nat)
  deepest : Nat

/-- `(int32_t)r`. -/
def int32 (r : Nat) : Int := if r % 0x100000000 < 0x80000000 then (r % 0x100000000 : Nat) else
    (r % 0x100000000 : Nat) - 0x100000000

/-- What `user_compare` makes of an answer. -/
def verdict : Option Nat → Int
  | none => 0
  | some r => int32 r

variable {σ : Type} (call : Callback σ) (cmp : Nat)

def userCompare (a b : Nat) (s : Env σ) : Int × Env σ :=
  let (r, mem, world) := call cmp a b s.mem s.world
  (verdict r, { s with mem, world, asked := s.asked ++ [(a, b)] })

/-- The loop of `user_swap`, after `n` rounds. -/
def swapBytes (a b : Nat) : (n : Nat) → Mem → Mem
  | 0, m => m
  | n + 1, m =>
    let m := swapBytes a b n m
    Function.update (Function.update m (a + n) (m (b + n))) (b + n) (m (a + n))

def userSwap (a b n : Nat) (s : Env σ) : Env σ := { s with mem := swapBytes a b n s.mem }

/-- `base + i * size` in 32 bits. -/
def elemAddr (base size i : Nat) : Nat := (base + i * size) % 0x100000000

/-- The inner loop of the insertion sort, from `j` down. -/
def insertDown (base size : Nat) : (j : Nat) → Env σ → Env σ
  | 0, s => s
  | j + 1, s =>
    let (r, s) := userCompare call cmp (elemAddr base size j) (elemAddr base size (j + 1)) s
    if 0 < r then insertDown base size j (userSwap (elemAddr base size j) (elemAddr base size (j + 1)) size s) else s

/-- The insertion sort, with `k` elements to go from `i` on. -/
def insertAll (base size : Nat) : (k i : Nat) → Env σ → Env σ
  | 0, _, s => s
  | k + 1, i, s => insertAll base size k (i + 1) (insertDown call cmp base size i s)

/-- The loop of the partition, with `k` elements to go from `i` on. -/
def partitionLoop (base size pivot : Nat) : (k i store : Nat) → Env σ → Nat × Env σ
  | 0, _, store, s => (store, s)
  | k + 1, i, store, s =>
    let (r, s) := userCompare call cmp (elemAddr base size i) pivot s
    if r < 0 then
      let s := if i ≠ store then userSwap (elemAddr base size i) (elemAddr base size store) size s else s
      partitionLoop base size pivot k (i + 1) (store + 1) s
    else partitionLoop base size pivot k (i + 1) store s

/-- The pivot goes to the end, the rest is partitioned, and the pivot goes
between the two sides. -/
def partition (base n size : Nat) (s : Env σ) : Nat × Env σ :=
  let pivot := elemAddr base size (n - 1)
  let s := userSwap (elemAddr base size (n / 2)) pivot size s
  let (store, s) := partitionLoop call cmp base size pivot (n - 1) 0 0 s
  (store, userSwap (elemAddr base size store) pivot size s)

/-- `user_qsort`, `depth` calls deep. -/
def userQsort (size : Nat) : (fuel depth base n : Nat) → Env σ → Option (Env σ)
  | 0, _, _, _, _ => none
  | fuel + 1, depth, base, n, s =>
    let s := { s with deepest := max s.deepest depth }
    if n ≤ 1 then some s
    else if n ≤ 8 then some (insertAll call cmp base size (n - 1) 1 s)
    else
      let (store, s) := partition call cmp base n size s
      let left := store
      let right := n - store - 1
      if left < right then
        (userQsort size fuel (depth + 1) base left s).bind
          (userQsort size fuel depth (elemAddr base size (store + 1)) right)
      else
        (userQsort size fuel (depth + 1) (elemAddr base size (store + 1)) right s).bind
          (userQsort size fuel depth base left)

def crtQsort (fuel base n size : Nat) (s : Env σ) : Option (Env σ) :=
  if base = 0 ∨ cmp = 0 ∨ size = 0 ∨ n < 2 then some s else userQsort call cmp size fuel 1 base n s

/-- The loop of `crt_bsearch`. -/
def bsearchLoop (key base size : Nat) : (fuel lo hi : Nat) → Env σ → Option (Nat × Env σ)
  | 0, _, _, _ => none
  | fuel + 1, lo, hi, s =>
    if lo < hi then
      let mid := lo + (hi - lo) / 2
      let elem := elemAddr base size mid
      let (r, s) := userCompare call cmp key elem s
      if r = 0 then some (elem, s)
      else if r < 0 then bsearchLoop key base size fuel lo mid s
      else bsearchLoop key base size fuel (mid + 1) hi s
    else some (0, s)

def crtBsearch (fuel key base n size : Nat) (s : Env σ) : Option (Nat × Env σ) :=
  if base = 0 ∨ cmp = 0 ∨ size = 0 then some (0, s) else bsearchLoop call cmp key base size fuel 0 n s

end NovarisOS.Win32
