/-! # Timestamps

Dates with a time of day and an offset from universal time, in the profile of the internet
standard: four digits of year, a proleptic Gregorian date, a leap second at any minute, and a
mandatory offset.
-/
namespace SelectionQuery

structure Timestamp where
  year : Nat
  month : Nat
  day : Nat
  hour : Nat
  minute : Nat
  second : Nat
  /-- The digits after the point of the seconds. -/
  fraction : List Char
  /-- The offset from universal time in minutes. -/
  offset : Int

namespace Timestamp

def isLeapYear (year : Nat) : Bool := year % 4 = 0 && (year % 100 ≠ 0 || year % 400 = 0)

def daysInMonth (year month : Nat) : Nat :=
  if month = 2 then if isLeapYear year then 29 else 28
  else if month = 4 ∨ month = 6 ∨ month = 9 ∨ month = 11 then 30
  else if 1 ≤ month ∧ month ≤ 12 then 31
  else 0

def digits? (count : Nat) (input : List Char) : Option (Nat × List Char) :=
  let digits := input.take count
  if digits.length = count ∧ digits.all Char.isDigit then
    some (Nat.ofDigitChars 10 digits 0, input.drop count)
  else none

def skip? (accepted : Char → Bool) : List Char → Option (List Char)
  | [] => none
  | c :: rest => if accepted c then some rest else none

def fraction? : List Char → Option (List Char × List Char)
  | '.' :: rest =>
    if (rest.takeWhile Char.isDigit).isEmpty then none
    else some (rest.takeWhile Char.isDigit, rest.dropWhile Char.isDigit)
  | rest => some ([], rest)

/-- An offset that takes up the whole input: `Z`, or a sign with hours and minutes. The sign may
also be the minus sign U+2212. -/
def offset? : List Char → Option Int
  | ['Z'] => some 0
  | ['z'] => some 0
  | sign :: rest => do
    let (hours, rest) ← digits? 2 rest
    let rest ← skip? (· = ':') rest
    let (minutes, rest) ← digits? 2 rest
    let total : Int := 60 * hours + minutes
    if ¬rest.isEmpty ∨ 24 ≤ hours ∨ 60 ≤ minutes then none
    else if sign = '+' then some total
    else if sign = '-' ∨ sign.toNat = 0x2212 then some (-total)
    else none
  | [] => none

def parse? (text : String) : Option Timestamp := do
  let (year, rest) ← digits? 4 text.toList
  let rest ← skip? (· = '-') rest
  let (month, rest) ← digits? 2 rest
  let rest ← skip? (· = '-') rest
  let (day, rest) ← digits? 2 rest
  let rest ← skip? (fun c => c = 'T' || c = 't' || c = ' ') rest
  let (hour, rest) ← digits? 2 rest
  let rest ← skip? (· = ':') rest
  let (minute, rest) ← digits? 2 rest
  let rest ← skip? (· = ':') rest
  let (second, rest) ← digits? 2 rest
  let (fraction, rest) ← fraction? rest
  let offset ← offset? rest
  if 1 ≤ day ∧ day ≤ daysInMonth year month ∧ hour < 24 ∧ minute < 60 ∧ second ≤ 60 then
    some { year, month, day, hour, minute, second, fraction, offset }
  else none

end Timestamp
end SelectionQuery
