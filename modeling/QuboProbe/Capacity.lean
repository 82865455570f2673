/-
  QuboProbe.Capacity

  How large a list can be: its entries lie in an address space of `2^63` bytes.
  A function whose name ends in a question mark gives nothing where a list that
  it needs could not be held.
-/

namespace QuboProbe.Capacity

/-- The bytes of one list are fewer than this. -/
def limit : Nat := 9223372036854775808

/-- Whether a list of `count` entries of `size` bytes each can be held. -/
def holds (size count : Nat) : Bool := decide (size * count < limit)

/-- The bytes of a bit in a bit string. -/
def bitSize : Nat := 1

/-- The bytes of an integer or a number. -/
def wordSize : Nat := 8

/-- The bytes of a bit string in a list of bit strings: its place, its length and its room. -/
def stringSize : Nat := 24

end QuboProbe.Capacity
