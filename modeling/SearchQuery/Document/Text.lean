import SearchQuery.Document
import SearchQuery.Number.Text

/-!
# The text of documents

One writer for both styles. A style says only what stands at a line break and after a key, so the
compact and the indented text differ in nothing but blanks between tokens.
-/

namespace SearchQuery

/-! ## String literals -/

def hexDigit (n : Nat) : Char := Nat.digitChar (n % 16)

/-- Quotes, backslashes and control characters are escaped. All other characters stand for
themselves. -/
def escapeChar (c : Char) : List Char :=
  match c with
  | '"' => ['\\', '"']
  | '\\' => ['\\', '\\']
  | '\x08' => ['\\', 'b']
  | '\x0c' => ['\\', 'f']
  | '\n' => ['\\', 'n']
  | '\r' => ['\\', 'r']
  | '\t' => ['\\', 't']
  | c =>
    if c.toNat < 0x20 then ['\\', 'u', '0', '0', hexDigit (c.toNat / 16), hexDigit c.toNat]
    else [c]

def literal (text : String) : List Char := '"' :: text.toList.flatMap escapeChar ++ ['"']

/-! ## Styles -/

structure Style where
  /-- What stands at a line break inside `depth` open brackets. -/
  lineBreak : (depth : Nat) → List Char
  /-- What stands between a key and its value. -/
  colon : List Char

namespace Style

/-- No blanks at all. -/
def compact : Style := ⟨fun _ => [], [':']⟩

/-- Each entry on its own line, two spaces for each open bracket. -/
def indented : Style := ⟨fun depth => '\n' :: List.replicate (2 * depth) ' ', [':', ' ']⟩

end Style

/-! ## Documents -/

namespace Document

mutual

/-- Writes a document that stands inside `depth` open brackets, and `rest` after it. An empty array
or object stays on its line. -/
def write (style : Style) (depth : Nat) : Document → List Char → List Char
  | .null, rest => 'n' :: 'u' :: 'l' :: 'l' :: rest
  | .bool true, rest => 't' :: 'r' :: 'u' :: 'e' :: rest
  | .bool false, rest => 'f' :: 'a' :: 'l' :: 's' :: 'e' :: rest
  | .number n, rest => n.text ++ rest
  | .string text, rest => literal text ++ rest
  | .array [], rest => '[' :: ']' :: rest
  | .array (d :: more), rest =>
    '[' :: style.lineBreak (depth + 1) ++
      write style (depth + 1) d (writeItems style depth more rest)
  | .object [], rest => '{' :: '}' :: rest
  | .object ((key, d) :: more), rest =>
    '{' :: style.lineBreak (depth + 1) ++ literal key ++ style.colon ++
      write style (depth + 1) d (writeEntries style depth more rest)

/-- Writes the items after the first, and closes the array. -/
def writeItems (style : Style) (depth : Nat) : List Document → List Char → List Char
  | [], rest => style.lineBreak depth ++ ']' :: rest
  | d :: more, rest =>
    ',' :: style.lineBreak (depth + 1) ++
      write style (depth + 1) d (writeItems style depth more rest)

/-- Writes the entries after the first, and closes the object. -/
def writeEntries (style : Style) (depth : Nat) : List (String × Document) → List Char → List Char
  | [], rest => style.lineBreak depth ++ '}' :: rest
  | (key, d) :: more, rest =>
    ',' :: style.lineBreak (depth + 1) ++ literal key ++ style.colon ++
      write style (depth + 1) d (writeEntries style depth more rest)

end

/-- The text without blanks, as it is sent. -/
def compact (d : Document) : String := String.ofList (d.write .compact 0 [])

/-- The text for people, with two spaces of indentation. -/
def pretty (d : Document) : String := String.ofList (d.write .indented 0 [])

example : compact (.object [("a", .array [.null, .bool true])]) =
    "\x7b\"a\":[null,true]\x7d" := by decide +kernel

end Document

end SearchQuery
