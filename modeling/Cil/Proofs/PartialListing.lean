import Mathlib
import Cil.Proofs.BoundedSink
import Cil.Proofs.ListingLayout

/-! Listings that do not get through: how far they come, and what stops them. -/
namespace Cil

variable {options : ListingOptions} {width : Nat} {i : Instruction} {body : List Instruction}
  {lines : List String} {limit : Nat} {flushFails : Bool}

section Fields

end Fields

namespace Step

end Step

namespace Listing

end Listing

end Cil
