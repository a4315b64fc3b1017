import EscapeAnalysis.Word

/-!
# Notes

The note on a parameter is its escape word as text, `esc:0x` and the word in hexadecimal. Callers
read it in place of the body. Only words of the classes `none` and `result` are written: whatever a
caller cannot read it takes for a parameter that escapes.

* `Word.note?` : the note of a word;
* `Word.ofNote` : the word of a note, `unknown` for a missing or malformed one;
* `Word.describe` : the word for a reader.
-/

namespace EscapeAnalysis

/-! ## Numbers in a note -/

/-- The value of a digit in a base of at most sixteen. -/
def digit? (base : Nat) (c : Char) : Option Nat :=
  let v :=
    if '0' ≤ c ∧ c ≤ '9' then c.toNat - '0'.toNat
    else if 'a' ≤ c ∧ c ≤ 'f' then c.toNat - 'a'.toNat + 10
    else if 'A' ≤ c ∧ c ≤ 'F' then c.toNat - 'A'.toNat + 10
    else base
  if v < base then some v else none

/-- The value of the digits after those already read as `acc`. -/
def readDigits (base acc : Nat) : List Char → Option Nat
  | [] => some acc
  | c :: cs =>
    match digit? base c with
    | some v => readDigits base (acc * base + v) cs
    | none => none

/-- One or more digits, after at most one `+`. -/
def readNumber (base : Nat) : List Char → Option Nat
  | [] => none
  | ['+'] => none
  | '+' :: cs => readDigits base 0 cs
  | cs => readDigits base 0 cs

namespace Word

/-- The number written in a note: hexadecimal after `0x`, decimal otherwise. -/
def noteNumber (note : List Char) : Option Nat :=
  match note with
  | 'e' :: 's' :: 'c' :: ':' :: '0' :: 'x' :: digits => readNumber 16 digits
  | 'e' :: 's' :: 'c' :: ':' :: digits => readNumber 10 digits
  | _ => none

/-- The word of a note. A number of more than sixteen bits is malformed, and zero stands for a
parameter that does not escape. -/
def ofNote : Option String → Word
  | none => plain .unknown
  | some note =>
    match noteNumber note.toList with
    | none => plain .unknown
    | some n =>
      if n = 0 then plain .none
      else if n < 65536 then ofNat n
      else plain .unknown

/-- The note of a word, if callers may rely on it. -/
def note? (w : Word) : Option String :=
  match w.cls with
  | .none | .result => some ("esc:0x" ++ String.ofList (Nat.toDigits 16 w.toNat))
  | _ => none

/-- One output field: `_` without a flow, `=` for a direct one, a `*` per dereference otherwise. -/
def describeField (field : Fin 8) : String :=
  match field.val with
  | 0 => "_"
  | 1 => "="
  | n => String.ofList (List.replicate (n - 1) '*')

def describe (w : Word) : String :=
  let cls := if w.cls = .never then [] else [w.cls.name]
  let content := if w.content then ["contentToHeap"] else []
  " ".intercalate (cls ++ content ++ w.fields.map describeField)

end Word

end EscapeAnalysis
