import ExecutionFabric.Model.Lifecycle

/-!
# Identifiers as texts

The strict parser of identifiers: sixteen hexadecimal digits, or decimal digits where
they are allowed.
-/
namespace ExecutionFabric

/-- The value of a hexadecimal digit of either case. -/
def hexDigit (c : UInt8) : Option UInt64 :=
  if '0'.toUInt8 ≤ c ∧ c ≤ '9'.toUInt8 then some (c - '0'.toUInt8).toUInt64
  else if 'a'.toUInt8 ≤ c ∧ c ≤ 'f'.toUInt8 then some ((c - 'a'.toUInt8).toUInt64 + 10)
  else if 'A'.toUInt8 ≤ c ∧ c ≤ 'F'.toUInt8 then some ((c - 'A'.toUInt8).toUInt64 + 10)
  else none

/-- Hexadecimal digits are shifted into the value; anything else ends the loop without one. -/
def parseHexDigits : Bytes → UInt64 → Option UInt64
  | [], value => some value
  | c :: rest, value =>
    match hexDigit c with
    | none => none
    | some digit => parseHexDigits rest ((value <<< 4) ||| digit)

/-- Decimal digits are added to the value unless that would wrap. -/
def parseDecimalDigits : Bytes → UInt64 → Option UInt64
  | [], value => some value
  | c :: rest, value =>
    if c < '0'.toUInt8 ∨ c > '9'.toUInt8 then none
    else
      let digit := (c - '0'.toUInt8).toUInt64
      if value > (0xFFFFFFFFFFFFFFFF - digit) / 10 then none
      else parseDecimalDigits rest (value * 10 + digit)

def parseId {d : IdDomain} (text : Bytes) (allowDecimal : Bool := false) : Option (Id d) :=
  match if text.length = 16 then parseHexDigits text 0 else none with
  | some value => some ⟨value⟩
  | none =>
    if allowDecimal = true ∧ text ≠ [] then (parseDecimalDigits text 0).map Id.mk else none

end ExecutionFabric
