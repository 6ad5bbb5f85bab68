import Mathlib.Algebra.GroupWithZero.Nat

/-!
# Sizes of the tables

The sizes that param.h and fs.h fix are not zero, so that an index can be written as a numeral.
-/
namespace Xv6

instance neZero_cpu : NeZero 1 := ⟨by decide⟩

instance neZero_addrs : NeZero 13 := ⟨by decide⟩

instance neZero_nofile : NeZero 16 := ⟨by decide⟩

instance neZero_ninode : NeZero 50 := ⟨by decide⟩

instance neZero_nproc : NeZero 64 := ⟨by decide⟩

end Xv6
