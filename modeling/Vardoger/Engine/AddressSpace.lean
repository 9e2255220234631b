import Vardoger.Base.Words

/-!
# The guest address-space layout

The constants of `address_space.hpp` and its two page-rounding helpers. Every base is fixed, so
the operations of the memory manager differ only in which cursor they advance.
-/

namespace Vardoger

open Words

/-- The guest page size. -/
def kPageSize : ℕ := 0x1000

/-- Loaded libraries of 32-bit guests grow up from here. -/
def kLibBase : ℕ := 0x12000000

/-- The return-to-here sentinel. -/
def kFiniPage : ℕ := 0x1FFF0000

/-- The trampoline page of SVC stubs. -/
def kTrampolineBase : ℕ := 0x20000000
def kTrampolineSize : ℕ := 0x00010000

/-- The region of the `JavaVM` tables and shadow objects. -/
def kJavaBase : ℕ := 0x30000000
def kJavaSize : ℕ := 0x04000000

/-- The first heap arena, and the size of each further one. -/
def kHeapBase : ℕ := 0x40000000
def kHeapSize : ℕ := 0x08000000
def kHeapExtent : ℕ := 0x04000000

/-- The thread-local storage block. -/
def kTlsBase : ℕ := 0x50000000
def kTlsSize : ℕ := 0x00010000

/-- Large `malloc` requests live between this base and `kMmapBase`. -/
def kBigMallocBase : ℕ := 0x54000000

/-- Anonymous and file mappings grow up from here. -/
def kMmapBase : ℕ := 0x70000000

/-- The stack grows down from here. -/
def kStackTop : ℕ := 0xC0000000
def kStackSize : ℕ := 0x00800000

/-- Loaded libraries of 64-bit guests grow up from here. -/
def kLibBase64 : ℕ := 0x7000000000

/-- Round an address down to its page. -/
def pageAlignDown (a : ℕ) : ℕ := maskDown a kPageSize

/-- Round an address up to a page, wrapping at the top of the address space. -/
def pageAlignUp (a : ℕ) : ℕ := maskUp a kPageSize

theorem pageAlignDown_eq {a : ℕ} (ha : a < 2 ^ 64) : pageAlignDown a = a / 4096 * 4096 :=
  maskDown_two_pow (k := 12) (by decide) ha

theorem pageAlignUp_eq {a : ℕ} (ha : a + 4095 < 2 ^ 64) :
    pageAlignUp a = (a + 4095) / 4096 * 4096 :=
  maskUp_two_pow (k := 12) (by decide) ha

/-- Page rounding gives a multiple of the page size even where the sum wraps. -/
theorem pageAlignUp_mod (a : ℕ) : pageAlignUp a % 4096 = 0 :=
  Nat.mod_eq_zero_of_dvd (maskUp_dvd (k := 12) (by decide))

end Vardoger
