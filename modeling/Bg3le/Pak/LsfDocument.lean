import Bg3le.Bytes
import Bg3le.Library.Slots

/-!
# LSF documents

A binary resource with its sections, as `lsf.h` keeps it in memory.
-/

namespace Bg3le
namespace Pak

/-- `LsfString`: a string value in the values section, without its terminator. -/
structure LsfString where
  offset : ℕ
  length : ℕ
  attributeName : Bytes
deriving DecidableEq

/-- `LsfDocument`. The string values lie inside of the values. -/
structure LsfDocument where
  filePrefix : Bytes
  metadataAt : ℕ
  version : ℕ
  hasKeys : Bool
  strings : Bytes
  nodes : Bytes
  attributes : Bytes
  values : Bytes
  keys : Bytes
  stringValues : List LsfString
  inBounds : ∀ s ∈ stringValues, s.offset + s.length ≤ values.length

/-- `LsfDocument{}`. -/
def LsfDocument.new : LsfDocument where
  filePrefix := []
  metadataAt := 0
  version := 0
  hasKeys := false
  strings := []
  nodes := []
  attributes := []
  values := []
  keys := []
  stringValues := []
  inBounds := by simp

/-- The document with some of its values overwritten. -/
def LsfDocument.overwrite (doc : LsfDocument) (pos : ℕ) (t : Bytes) : LsfDocument :=
  { doc with
    values := Slots.overwrite doc.values pos t
    inBounds := by simpa using doc.inBounds }

end Pak
end Bg3le
