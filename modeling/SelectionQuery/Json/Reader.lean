import SelectionQuery.Json.Basic

/-! # Reading JSON text

A strict reader of the interchange grammar: four blank characters, no trailing commas, no leading
zeros, paired surrogate escapes only, and a bound on the number of containers open at once. Each
step returns a strictly shorter rest, which is what makes the loops over items end.
-/
namespace SelectionQuery.Json.Reader

/-- A value read from the front of `input`, with the shorter rest. -/
abbrev Step (α : Type) (input : List Char) :=
  Option (α × { rest : List Char // rest.length < input.length })

def Step.within {α : Type} {input longer : List Char} (h : input.length ≤ longer.length)
    (step : Step α input) : Step α longer :=
  step.map fun (value, rest) => (value, ⟨rest.val, Nat.lt_of_lt_of_le rest.property h⟩)

def isBlank (c : Char) : Bool := c = ' ' || c = '\t' || c = '\n' || c = '\r'

def skipBlank (input : List Char) : List Char := input.dropWhile isBlank

theorem length_skipBlank_le (input : List Char) : (skipBlank input).length ≤ input.length :=
  (List.dropWhile_suffix isBlank).length_le

/-- The characters a number is made of. None of them can follow a number in a document. -/
def isNumberChar (c : Char) : Bool :=
  c.isDigit || c = '-' || c = '+' || c = '.' || c = 'e' || c = 'E'

def digitsValue (digits : List Char) : Nat := Nat.ofDigitChars 10 digits 0

/-- One zero, or digits that do not start with zero. -/
def isWholePart (digits : List Char) : Bool :=
  match digits with
  | [] => false
  | [_] => true
  | c :: _ => c ≠ '0'

/-- The exponent of a number: none, or a mark, an optional sign and digits up to the end. -/
def exponent? : List Char → Option Int
  | [] => some 0
  | mark :: rest =>
    let (negative, digits) :=
      match rest with
      | '-' :: digits => (true, digits)
      | '+' :: digits => (false, digits)
      | digits => (false, digits)
    if (mark = 'e' || mark = 'E') && !digits.isEmpty && digits.all Char.isDigit then
      some (if negative then -(digitsValue digits : Int) else digitsValue digits)
    else none

/-- The number written by the whole of `input`. Without fraction and exponent it is an integer
when that fits 64 bits, signed if negative and unsigned otherwise. A negative zero is a float. -/
def number? (input : List Char) : Option Number :=
  let (negative, unsigned) :=
    match input with
    | '-' :: rest => (true, rest)
    | rest => (false, rest)
  let whole := unsigned.takeWhile Char.isDigit
  let afterWhole := unsigned.dropWhile Char.isDigit
  if !isWholePart whole then none
  else
    match afterWhole with
    | [] =>
      let magnitude := digitsValue whole
      let value : Int := if negative then -(magnitude : Int) else magnitude
      if Number.leastInteger ≤ value ∧ value ≤ Number.greatestInteger ∧
          ¬(negative ∧ magnitude = 0) then
        some (.integer value)
      else (Binary64.ofDecimal? negative magnitude 0).map .float
    | '.' :: rest =>
      let fraction := rest.takeWhile Char.isDigit
      if fraction.isEmpty then none
      else
        (exponent? (rest.dropWhile Char.isDigit)).bind fun power =>
          (Binary64.ofDecimal? negative (digitsValue (whole ++ fraction))
            (power - fraction.length)).map .float
    | rest =>
      (exponent? rest).bind fun power =>
        (Binary64.ofDecimal? negative (digitsValue whole) power).map .float

def hexDigit? (c : Char) : Option Nat :=
  if '0' ≤ c && c ≤ '9' then some (c.toNat - '0'.toNat)
  else if 'a' ≤ c && c ≤ 'f' then some (c.toNat - 'a'.toNat + 10)
  else if 'A' ≤ c && c ≤ 'F' then some (c.toNat - 'A'.toNat + 10)
  else none

def hexUnit? : (input : List Char) → Step Nat input
  | a :: b :: c :: d :: rest => do
    let a ← hexDigit? a
    let b ← hexDigit? b
    let c ← hexDigit? c
    let d ← hexDigit? d
    some (((a * 16 + b) * 16 + c) * 16 + d, ⟨rest, by simp only [List.length_cons]; omega⟩)
  | _ => none

def isHighSurrogate (unit : Nat) : Bool := 0xd800 ≤ unit && unit ≤ 0xdbff

def isLowSurrogate (unit : Nat) : Bool := 0xdc00 ≤ unit && unit ≤ 0xdfff

/-- The character of a `u` escape: one unit outside the surrogates, or a high and a low one. -/
def unicodeEscape? (input : List Char) : Step Char input :=
  match hexUnit? input with
  | none => none
  | some (unit, ⟨rest, shorter⟩) =>
    if isHighSurrogate unit then
      match rest, shorter with
      | '\\' :: 'u' :: second, shorter =>
        match hexUnit? second with
        | none => none
        | some (low, ⟨rest, shorter'⟩) =>
          if isLowSurrogate low then
            some (Char.ofNat (0x10000 + (unit - 0xd800) * 0x400 + (low - 0xdc00)),
              ⟨rest, by simp only [List.length_cons] at shorter; omega⟩)
          else none
      | _, _ => none
    else if isLowSurrogate unit then none
    else some (Char.ofNat unit, ⟨rest, shorter⟩)

def escape? : (input : List Char) → Step Char input
  | [] => none
  | mark :: rest =>
    let plain (c : Char) : Step Char (mark :: rest) := some (c, ⟨rest, by simp⟩)
    if mark = '"' then plain '"'
    else if mark = '\\' then plain '\\'
    else if mark = '/' then plain '/'
    else if mark = 'b' then plain (Char.ofNat 0x08)
    else if mark = 'f' then plain (Char.ofNat 0x0c)
    else if mark = 'n' then plain '\n'
    else if mark = 'r' then plain '\r'
    else if mark = 't' then plain '\t'
    else if mark = 'u' then Step.within (by simp) (unicodeEscape? rest)
    else none

/-- The rest of a string after its opening quote and the characters read so far, last first. -/
def stringBody? (read : List Char) (input : List Char) : Step String input :=
  match input with
  | [] => none
  | c :: rest =>
    if c = '"' then some (String.ofList read.reverse, ⟨rest, by simp⟩)
    else if c = '\\' then
      match escape? rest with
      | none => none
      | some (meant, ⟨rest', _⟩) =>
        Step.within (by simp only [List.length_cons]; omega) (stringBody? (meant :: read) rest')
    else if c.toNat < 0x20 then none
    else Step.within (by simp) (stringBody? (c :: read) rest)
termination_by input.length
decreasing_by all_goals (simp only [List.length_cons]; omega)

/-- Items after the opening of a container that is not empty, each followed by a comma or by the
closing character. The items read so far are given last first. -/
def sequence? {α : Type} (close : Char) (item? : (input : List Char) → Step α input)
    (read : List α) (input : List Char) : Step (List α) input :=
  match item? input with
  | none => none
  | some (item, ⟨rest, _⟩) =>
    match h : skipBlank rest with
    | [] => none
    | c :: rest' =>
      have := length_skipBlank_le rest
      have : rest'.length < rest.length := by simp only [h, List.length_cons] at this; omega
      if c = close then some ((item :: read).reverse, ⟨rest', by omega⟩)
      else if c = ',' then
        Step.within (by omega) (sequence? close item? (item :: read) rest')
      else none
termination_by input.length
decreasing_by omega

def container? {α : Type} (close : Char) (item? : (input : List Char) → Step α input)
    (input : List Char) : Step (List α) input :=
  match h : skipBlank input with
  | [] => none
  | c :: rest =>
    if c = close then
      some ([], ⟨rest, by
        have := length_skipBlank_le input
        simp only [h, List.length_cons] at this
        omega⟩)
    else sequence? close item? [] input

/-- An entry added to those before it. A repeated key keeps its first place and takes the new
value. -/
def put (fields : List (String × Json)) (entry : String × Json) : List (String × Json) :=
  if fields.any (fun field => field.1 == entry.1) then
    fields.map fun field => if field.1 == entry.1 then entry else field
  else fields ++ [entry]

def keyed? (value? : (input : List Char) → Step Json input) (input : List Char) :
    Step (String × Json) input :=
  match h : skipBlank input with
  | '"' :: rest =>
    match stringBody? [] rest with
    | none => none
    | some (key, ⟨rest', _⟩) =>
      match h' : skipBlank rest' with
      | ':' :: rest'' =>
        Step.within
          (by
            have hi := length_skipBlank_le input
            have hr := length_skipBlank_le rest'
            simp only [h, List.length_cons] at hi
            simp only [h', List.length_cons] at hr
            omega)
          ((value? rest'').map fun (value, after) => ((key, value), after))
      | _ => none
  | _ => none

/-- A value from the front of `input`, with room for `depth` open containers. -/
def value? (depth : Nat) (input : List Char) : Step Json input :=
  Step.within (length_skipBlank_le input) <|
    match skipBlank input with
    | [] => none
    | 'n' :: 'u' :: 'l' :: 'l' :: rest =>
      some (.null, ⟨rest, by simp only [List.length_cons]; omega⟩)
    | 't' :: 'r' :: 'u' :: 'e' :: rest =>
      some (.bool true, ⟨rest, by simp only [List.length_cons]; omega⟩)
    | 'f' :: 'a' :: 'l' :: 's' :: 'e' :: rest =>
      some (.bool false, ⟨rest, by simp only [List.length_cons]; omega⟩)
    | c :: rest =>
      if c = '"' then
        Step.within (by simp) ((stringBody? [] rest).map fun (s, after) => (.string s, after))
      else if c = '[' then
        match depth with
        | 0 => none
        | depth + 1 =>
          Step.within (by simp)
            ((container? ']' (value? depth) rest).map fun (items, after) => (.array items, after))
      else if c = '\x7b' then
        match depth with
        | 0 => none
        | depth + 1 =>
          Step.within (by simp)
            ((container? '\x7d' (keyed? (value? depth)) rest).map fun (entries, after) =>
              (.object (entries.foldl put []), after))
      else if isNumberChar c then
        (number? (c :: rest.takeWhile isNumberChar)).map fun n =>
          (.number n, ⟨rest.dropWhile isNumberChar, by
            have := (List.dropWhile_suffix (l := rest) isNumberChar).length_le
            simp only [List.length_cons]
            omega⟩)
      else none

end SelectionQuery.Json.Reader

namespace SelectionQuery.Json

/-- The value that the whole of `source` writes, blanks around it apart, with at most `depth`
containers open at once. -/
def parse? (depth : Nat) (source : String) : Option Json :=
  match Reader.value? depth source.toList with
  | none => none
  | some (value, ⟨rest, _⟩) => if (Reader.skipBlank rest).isEmpty then some value else none

end SelectionQuery.Json
