import Mathlib.Data.List.Basic

/-! Byte strings, the values of `std::string`. -/

namespace Lingx

abbrev Byte := UInt8

abbrev Bytes := List Byte

/-- The bytes of a literal. -/
def ascii (s : String) : Bytes := s.toList.map fun c => UInt8.ofNat c.toNat

end Lingx
