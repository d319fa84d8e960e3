/-!
# Error codes

`Error` wraps one `int`: an errno, or one of the library's own codes, which
start at `kUnknown = 8000`.
-/

namespace Kosio

structure Error where
  errorCode : Int
deriving DecidableEq, Repr

namespace Error

def kUnknown : Error := ⟨8000⟩
def kPassedTime : Error := ⟨8001⟩
def kWriteZero : Error := ⟨8002⟩
def kEarlyEOF : Error := ⟨8003⟩
def kClosedChannel : Error := ⟨8008⟩

end Error

/-- `std::expected<T, Error>`. -/
abbrev Result (α : Type) := Except Error α

end Kosio
