/-!
# Errors of loading

Why bytes, or a piece of source text, are no compiled pattern.
-/

namespace BoundedRegex

/-- Why something is no compiled pattern. -/
inductive LoadError where
  /-- The header is missing or does not agree with the length of the data. -/
  | invalidFormat
  /-- The format has another version. -/
  | unsupportedVersion (version : UInt8)
  /-- The code has a fault at an offset. -/
  | invalidCode (offset : Nat)
  /-- The source text does not hold the array, or the array's name is no identifier. -/
  | invalidSnippet
deriving DecidableEq

/-- The wording of an error. -/
def LoadError.message : LoadError → String
  | invalidFormat => "not a valid compiled pattern"
  | unsupportedVersion version => "unsupported format version: " ++ toString version.toNat
  | invalidCode offset => "invalid code at offset " ++ toString offset
  | invalidSnippet => "invalid source snippet"

end BoundedRegex
