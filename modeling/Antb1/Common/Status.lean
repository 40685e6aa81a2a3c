/-! Arrow's statuses and results, as far as the engine looks at them. -/
namespace Antb1.Common

/-- A status' code; those the modelled code does not ask for are opaque. -/
inductive StatusCode where
  | outOfMemory
  | invalid
  | capacityError
  | other (code : Nat)
  deriving DecidableEq, Repr

/-- A status that is not OK. -/
structure Status where
  code : StatusCode
  message : String
  deriving DecidableEq, Repr

namespace Status

def outOfMemory (message : String) : Status := ⟨.outOfMemory, message⟩

def invalid (message : String) : Status := ⟨.invalid, message⟩

def capacityError (message : String) : Status := ⟨.capacityError, message⟩

def executionError (message : String) : Status := ⟨.other 42, message⟩

def isOutOfMemory (status : Status) : Bool := status.code = .outOfMemory

end Status

/-- `arrow::Result`. -/
abbrev Result (T : Type) := Except Status T

namespace Result

variable {T : Type}

def isOutOfMemory : Result T → Bool
  | .ok _ => false
  | .error status => status.isOutOfMemory

/-- `none` where the result is OK. -/
def status : Result T → Option Status
  | .ok _ => none
  | .error status => some status

end Result

end Antb1.Common
