/-
NovarisOS.Vfs.Basic — the constants and the machine arithmetic the file
systems share: `include/vfs.h`, the errno values of `include/posix.h`, and
the width of the integers they are computed in.

A 32-bit value is a `Nat` below `2 ^ 32`. Where a sum can leave that range
the model says so with `u32`; where it cannot, there is nothing to say.
-/
import NovarisOS.Lib.Mem

namespace NovarisOS

/-- A value stored in a `uint32_t`. -/
def u32 (n : Nat) : Nat := n % 4294967296

/-- A `uint32_t` converted to `int32_t`. -/
def int32 (n : Nat) : Int := if n < 2147483648 then n else (n : Int) - 4294967296

theorem u32_of_lt {n : Nat} (h : n < 4294967296) : u32 n = n := Nat.mod_eq_of_lt h

theorem u32_add_wrap {a b : Nat} (ha : a < 4294967296) (hb : b < 4294967296)
    (h : 4294967296 ≤ a + b) : u32 (a + b) = a + b - 4294967296 := by
  unfold u32
  omega

theorem int32_of_lt {n : Nat} (h : n < 2147483648) : int32 n = n := if_pos h

/-- `'/'`. -/
abbrev SLASH : UInt8 := 47

/-! ## `include/posix.h` -/

abbrev ENOENT : Int := 2
abbrev EIO : Int := 5
abbrev EBADF : Int := 9
abbrev ENOMEM : Int := 12
abbrev EBUSY : Int := 16
abbrev EEXIST : Int := 17
abbrev ENOTDIR : Int := 20
abbrev EISDIR : Int := 21
abbrev EINVAL : Int := 22
abbrev ENOSPC : Int := 28
abbrev ENAMETOOLONG : Int := 36
abbrev ENOTEMPTY : Int := 39

/-! ## `include/vfs.h` -/

/-- `VFS_FILE`, `VFS_DIRECTORY`, `VFS_SOCKET` and `VFS_SYMLINK`: the flag
values a node is created with, of which every caller passes exactly one. -/
inductive Kind where
  | file
  | directory
  | socket
  | symlink
  deriving DecidableEq, Repr

abbrev VFS_NAME_MAX : Nat := 128
abbrev VFS_MAPPING_RESERVE : Nat := 4194304
abbrev VFS_SYMLINK_MAX : Nat := 256

/-- A heap block as `kmalloc` hands it over: its address and whatever bytes
it holds. -/
structure Block where
  addr : Nat
  mem : Mem

/-- What the kernel heap answers during one call: a block for a size, or
nothing. -/
abbrev Heap := Nat → Option Block

/-- `kmalloc`: a request for no bytes is refused whatever the heap holds. -/
def kmalloc (heap : Heap) (size : Nat) : Option Block :=
  if size = 0 then none else heap size

end NovarisOS
