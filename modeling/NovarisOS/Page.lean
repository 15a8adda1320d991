/-
NovarisOS.Page — the page size of the 32-bit sources, that of
`include/paging64.h`, and the end of the user half, `include/uspace64.h`.
-/

namespace NovarisOS

abbrev PAGE_SIZE : Nat := 4096
abbrev PAGE64_SIZE : Nat := 4096
abbrev USPACE64_LIMIT : Nat := 0x0000800000000000

end NovarisOS
