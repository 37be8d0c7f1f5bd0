import SdiOS.Machine.Strings

/-!
# The C library routines of `include/stdlib.h`

Every server of the system is linked with the memory and string routines of this header and with
no other C library. A word is 32 bits wide (`L4_Word_t`, `size_t`), pointers included. A loop
over a counter is a recursion on it. A loop that only stops at a NUL carries the number of
addresses as its budget: after `2 ^ 32` steps it has seen every address and never stops, which is
the result `none`.
-/

namespace SdiOS

open Machine

/-- `L4_Word_t`, `word_t`, `addr_t`, `size_t` and every pointer. -/
abbrev Word := BitVec 32

/-- The address space of one task. -/
abbrev Mem := Memory 32

/-- The number of addresses, and so the number of steps after which a scan has seen them all. -/
def addressSpace : ℕ := 2 ^ 32

/-! ## `memset` and `memcpy` -/

/-- The loop `for ( ;size--; ) *( d++ ) = c`. -/
def memsetLoop (c : Byte) : ℕ → Mem → Word → Mem
  | 0, m, _ => m
  | size + 1, m, d => memsetLoop c size (m.store d c) (d + 1#32)

/-- `memset`: the memory it leaves. -/
def memset (m : Mem) (dest : Word) (c : Byte) (size : Word) : Mem :=
  memsetLoop c size.toNat m dest

/-- The loop `while ( size-- ) *( d++ ) = *( s++ )`. -/
def memcpyLoop : ℕ → Mem → Word → Word → Mem
  | 0, m, _, _ => m
  | size + 1, m, d, s => memcpyLoop size (m.store d (m s)) (d + 1#32) (s + 1#32)

/-- `memcpy`: the memory it leaves. -/
def memcpy (m : Mem) (dest src size : Word) : Mem := memcpyLoop size.toNat m dest src

/-! ## `strncpy` -/

/-- The first loop of `strncpy`, with the memory, `dest` and `max` it leaves behind. A failing
test `max--` has already taken `max` past zero. -/
def strncpyCopy : ℕ → Mem → Word → Word → Mem × Word × Word
  | 0, m, dest, _ => (m, dest, 0#32 - 1#32)
  | max + 1, m, dest, src =>
    let c := m src
    if c = 0#8 then (m.store dest c, dest + 1#32, BitVec.ofNat 32 max)
    else strncpyCopy max (m.store dest c) (dest + 1#32) (src + 1#32)

/-- The second loop of `strncpy`, `while ( max < 0 )`. The counter is unsigned. -/
def strncpyPad : ℕ → Mem → Word → Word → Mem × Word
  | 0, m, dest, _ => (m, dest)
  | budget + 1, m, dest, max =>
    if max < 0#32 then strncpyPad budget (m.store dest 0#8) (dest + 1#32) (max - 1#32)
    else (m, dest)

/-- `strncpy`: the memory it leaves and the pointer it returns. -/
def strncpy (m : Mem) (dest src max : Word) : Mem × Word :=
  let (m, dest, max) := strncpyCopy max.toNat m dest src
  strncpyPad addressSpace m dest max

/-! ## `strncmp`, `strlen` and `strcpy` -/

/-- The loop of `strncmp`, with the `max`, `dest` and `src` it stops at. -/
def strncmpLoop (m : Mem) : ℕ → Word → Word → ℕ × Word × Word
  | 0, dest, src => (0, dest, src)
  | max + 1, dest, src =>
    if m dest = 0#8 then (max + 1, dest, src)
    else if m dest ≠ m src then (max + 1, dest, src)
    else strncmpLoop m max (dest + 1#32) (src + 1#32)

/-- The result `(max)?*dest - *src:0`. The characters are signed, as `char` is on this machine. -/
def strncmpResult (m : Mem) : ℕ × Word × Word → ℤ
  | (max, dest, src) => if max ≠ 0 then (m dest).toInt - (m src).toInt else 0

/-- `strncmp`. -/
def strncmp (m : Mem) (dest src max : Word) : ℤ :=
  strncmpResult m (strncmpLoop m max.toNat dest src)

/-- The loop `while ( *src ) src++`, with the pointer it stops at. -/
def strlenLoop (m : Mem) : ℕ → Word → Option Word
  | 0, _ => none
  | budget + 1, src => if m src = 0#8 then some src else strlenLoop m budget (src + 1#32)

/-- `strlen`, or `none` when there is no terminator in all of memory. -/
def strlen (m : Mem) (src : Word) : Option Word :=
  (strlenLoop m addressSpace src).map (· - src)

/-- The loop `while ((*dest++ = *src++))`. -/
def strcpyLoop : ℕ → Mem → Word → Word → Option Mem
  | 0, _, _, _ => none
  | budget + 1, m, dest, src =>
    let c := m src
    if c = 0#8 then some (m.store dest c)
    else strcpyLoop budget (m.store dest c) (dest + 1#32) (src + 1#32)

/-- `strcpy`: the memory it leaves. It returns `dest`, which no caller uses. -/
def strcpy (m : Mem) (dest src : Word) : Option Mem := strcpyLoop addressSpace m dest src

end SdiOS
