import Mathlib

/-!
Casts between fixed-width integers. A bit pattern of width `m`, read as an
integer (signed or unsigned), is cast to width `n` by reduction modulo `2^n`.
Sign extension, zero extension and truncation are all of this form, and
reading a pattern back as an integer and casting it again to a width no larger
than `m` gives the same result as casting the original integer.
-/
namespace WrappingCast

end WrappingCast
