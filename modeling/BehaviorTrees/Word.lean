/-!
# Words

The numbers of 64 bits.
-/

namespace BehaviorTrees.Word

/-- How many words there are. -/
def count : Nat := 18446744073709551616

/-- How many of them are negative when they are read with a sign. -/
def half : Nat := 9223372036854775808

theorem count_eq_two_mul_half : count = 2 * half := rfl

end BehaviorTrees.Word
