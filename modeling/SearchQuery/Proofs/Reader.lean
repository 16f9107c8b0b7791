import SearchQuery.Document.Text
import SearchQuery.Proofs.Numeral

/-!
# Reading documents

A reader for the grammar of documents, with blanks between tokens. It first cuts the text into tokens
and then puts these together. In either style it gives back the document that was written, so two
documents never have the same text.
-/

namespace SearchQuery

/-! ## String literals -/

/-- The character that an escape of two characters stands for. -/
def unescape? (c : Char) : Option Char :=
  if c = '"' ∨ c = '\\' ∨ c = '/' then some c
  else if c = 'b' then some '\x08'
  else if c = 'f' then some '\x0c'
  else if c = 'n' then some '\n'
  else if c = 'r' then some '\r'
  else if c = 't' then some '\t'
  else none

def hexValue? (c : Char) : Option Nat :=
  if '0' ≤ c ∧ c ≤ '9' then some (c.toNat - '0'.toNat)
  else if 'a' ≤ c ∧ c ≤ 'f' then some (c.toNat - 'a'.toNat + 10)
  else if 'A' ≤ c ∧ c ≤ 'F' then some (c.toNat - 'A'.toNat + 10)
  else none

/-- The character with the code that four hexadecimal digits give. Halves of surrogate pairs are no
characters. -/
def hexChar? (a b c d : Char) : Option Char := do
  let code := (((← hexValue? a) * 16 + (← hexValue? b)) * 16 + (← hexValue? c)) * 16 +
    (← hexValue? d)
  if code.isValidChar then some (Char.ofNat code) else none

/-- The characters of a literal up to its closing quote, and the text after it. -/
def readLiteral : List Char → Option (List Char × List Char)
  | [] => none
  | '"' :: rest => some ([], rest)
  | '\\' :: 'u' :: a :: b :: c :: d :: rest =>
    (hexChar? a b c d).bind (fun char =>
      (readLiteral rest).map (fun taken => (char :: taken.1, taken.2)))
  | '\\' :: c :: rest =>
    (unescape? c).bind (fun char =>
      (readLiteral rest).map (fun taken => (char :: taken.1, taken.2)))
  | c :: rest =>
    if c.toNat < 0x20 then none
    else (readLiteral rest).map (fun taken => (c :: taken.1, taken.2))

theorem hexChar?_hexDigit {n : Nat} (h : n < 0x20) :
    hexChar? '0' '0' (hexDigit (n / 16)) (hexDigit n) = some (Char.ofNat n) := by
  have hall : ∀ n < 0x20, hexChar? '0' '0' (hexDigit (n / 16)) (hexDigit n) =
      some (Char.ofNat n) := by decide
  exact hall n h

theorem readLiteral_escapeChar (c : Char) (rest : List Char) :
    readLiteral (escapeChar c ++ rest) =
      (readLiteral rest).map (fun taken => (c :: taken.1, taken.2)) := by
  unfold escapeChar
  split
  iterate 7 rfl
  · rename_i hquote hbackslash _ _ _ _ _
    split
    · rename_i hcontrol
      have hchar := hexChar?_hexDigit hcontrol
      rw [Char.ofNat_toNat] at hchar
      simp only [List.cons_append, List.nil_append]
      rw [readLiteral, hchar, Option.bind_some]
    · rename_i hplain
      rw [List.singleton_append, readLiteral, if_neg hplain]
      · exact hquote
      · exact fun _ _ _ _ _ h _ => hbackslash h
      · exact fun _ _ h _ => hbackslash h

theorem readLiteral_literal (text : String) (rest : List Char) :
    readLiteral (text.toList.flatMap escapeChar ++ '"' :: rest) = some (text.toList, rest) := by
  induction text.toList with
  | nil => rfl
  | cons c more ih => rw [List.flatMap_cons, List.append_assoc, readLiteral_escapeChar, ih,
      Option.map_some]

/-! ## Tokens -/

inductive Token where
  | openArray
  | closeArray
  | openObject
  | closeObject
  | comma
  | colon
  | null
  | bool (b : Bool)
  | number (n : Number)
  | text (text : String)

namespace Token

/-- The characters that may stand between tokens. -/
def isBlank (c : Char) : Bool := c = ' ' ∨ c = '\t' ∨ c = '\n' ∨ c = '\r'

def ofMark? (c : Char) : Option Token :=
  if c = '[' then some .openArray
  else if c = ']' then some .closeArray
  else if c = '{' then some .openObject
  else if c = '}' then some .closeObject
  else if c = ',' then some .comma
  else if c = ':' then some .colon
  else none

def readWord : List Char → Option (Token × List Char)
  | 'n' :: 'u' :: 'l' :: 'l' :: rest => some (.null, rest)
  | 't' :: 'r' :: 'u' :: 'e' :: rest => some (.bool true, rest)
  | 'f' :: 'a' :: 'l' :: 's' :: 'e' :: rest => some (.bool false, rest)
  | _ => none

/-- The token at the start of a text, and the text after it. -/
def read? : List Char → Option (Token × List Char)
  | [] => none
  | c :: rest =>
    if c.isDigit ∨ c = '-' then
      (Number.read? (c :: rest)).map (fun taken => (.number taken.1, taken.2))
    else if c = '"' then
      (readLiteral rest).map (fun taken => (.text (String.ofList taken.1), taken.2))
    else
      match ofMark? c with
      | some token => some (token, rest)
      | none => readWord (c :: rest)

/-- All tokens of a text. Each takes a character at least. -/
def readAll : List Char → Option (List Token)
  | [] => some []
  | c :: rest =>
    if isBlank c then readAll rest
    else
      match read? (c :: rest) with
      | none => none
      | some (token, after) =>
        if after.length ≤ rest.length then (readAll after).map (token :: ·) else none
termination_by text => text.length

/-- The text is these tokens with blanks between them, and then the rest. -/
def Reads (text : List Char) (tokens : List Token) (rest : List Char) : Prop :=
  readAll text = (readAll rest).map (tokens ++ ·)

theorem Reads.trans {text middle rest : List Char} {first second : List Token}
    (hfirst : Reads text first middle) (hsecond : Reads middle second rest) :
    Reads text (first ++ second) rest := by
  unfold Reads at *
  rw [hfirst, hsecond, Option.map_map]
  simp [Function.comp_def]

theorem reads_blanks {blanks : List Char} (h : ∀ c ∈ blanks, isBlank c = true)
    (rest : List Char) : Reads (blanks ++ rest) [] rest := by
  induction blanks with
  | nil => simp [Reads]
  | cons c more ih =>
    rw [List.forall_mem_cons] at h
    rw [List.cons_append, Reads, readAll, if_pos h.1]
    exact ih h.2

theorem reads_of_read? {c : Char} (more : List Char) {rest : List Char} {token : Token}
    (hblank : isBlank c = false) (h : read? (c :: (more ++ rest)) = some (token, rest)) :
    Reads (c :: (more ++ rest)) [token] rest := by
  have hlength : rest.length ≤ (more ++ rest).length := by simp
  rw [Reads, readAll, if_neg (by simp [hblank]), h]
  exact if_pos hlength

theorem mem_of_ofMark? {c : Char} {token : Token} (h : ofMark? c = some token) :
    c ∈ ['[', ']', '{', '}', ',', ':'] := by
  unfold ofMark? at h
  grind

theorem reads_mark {c : Char} {token : Token} (h : ofMark? c = some token) (rest : List Char) :
    Reads (c :: rest) [token] rest := by
  have hmarks : ∀ c ∈ ['[', ']', '{', '}', ',', ':'],
      (c.isDigit = false ∧ c ≠ '-' ∧ c ≠ '"') ∧ isBlank c = false := by simp [isBlank]
  obtain ⟨hother, hblank⟩ := hmarks c (mem_of_ofMark? h)
  refine reads_of_read? [] hblank ?_
  simp [read?, hother, h]

theorem reads_literal (text : String) (rest : List Char) :
    Reads (literal text ++ rest) [.text text] rest := by
  have hread : read? ('"' :: (text.toList.flatMap escapeChar ++ ['"'] ++ rest)) =
      some (.text text, rest) := by
    rw [List.append_assoc]
    simp [read?, readLiteral_literal, String.ofList_toList]
  exact reads_of_read? _ rfl hread

theorem isBlank_of_isDigit {c : Char} (h : c.isDigit = true ∨ c = '-') : isBlank c = false := by
  cases hblank : isBlank c with
  | false => rfl
  | true =>
    simp only [isBlank, decide_eq_true_eq] at hblank
    obtain rfl | rfl | rfl | rfl := hblank <;> simp at h

theorem reads_number (number : Number) {rest : List Char} (hrest : Numeral.Ends rest) :
    Reads (number.text ++ rest) [.number number] rest := by
  obtain ⟨c, more, htext, hhead⟩ := number.exists_text_eq_cons
  have hread := Number.read?_text number hrest
  rw [htext, List.cons_append] at hread ⊢
  refine reads_of_read? more (isBlank_of_isDigit hhead) ?_
  rw [read?, if_pos hhead, hread, Option.map_some]

end Token

/-! ## Documents as tokens -/

namespace Document

mutual

def tokens : Document → List Token
  | .null => [.null]
  | .bool b => [.bool b]
  | .number n => [.number n]
  | .string text => [.text text]
  | .array [] => [.openArray, .closeArray]
  | .array (d :: more) => .openArray :: (d.tokens ++ itemTokens more)
  | .object [] => [.openObject, .closeObject]
  | .object ((key, d) :: more) =>
    .openObject :: .text key :: .colon :: (d.tokens ++ entryTokens more)

/-- The tokens of the items after the first, and the end of the array. -/
def itemTokens : List Document → List Token
  | [] => [.closeArray]
  | d :: more => .comma :: (d.tokens ++ itemTokens more)

/-- The tokens of the entries after the first, and the end of the object. -/
def entryTokens : List (String × Document) → List Token
  | [] => [.closeObject]
  | (key, d) :: more => .comma :: .text key :: .colon :: (d.tokens ++ entryTokens more)

end

end Document

/-- A style that puts nothing but blanks between the tokens. -/
structure Style.Blank (style : Style) : Prop where
  lineBreak : ∀ depth, ∀ c ∈ style.lineBreak depth, Token.isBlank c = true
  colon : ∃ blanks, style.colon = ':' :: blanks ∧ ∀ c ∈ blanks, Token.isBlank c = true

theorem Style.blank_compact : Style.compact.Blank where
  lineBreak := by simp [Style.compact]
  colon := ⟨[], rfl, by simp⟩

theorem Style.blank_indented : Style.indented.Blank where
  lineBreak := by simp +contextual [Style.indented, Token.isBlank, List.mem_replicate]
  colon := ⟨[' '], rfl, by simp [Token.isBlank]⟩

namespace Document

theorem ends_of_blanks {blanks : List Char} (h : ∀ c ∈ blanks, Token.isBlank c = true)
    {rest : List Char} (hrest : Numeral.Ends rest) : Numeral.Ends (blanks ++ rest) := by
  cases blanks with
  | nil => exact hrest
  | cons c more =>
    have hc := h c List.mem_cons_self
    simp only [Token.isBlank, decide_eq_true_eq] at hc
    intro head hhead
    simp only [List.cons_append, List.head?_cons, Option.mem_def, Option.some.injEq] at hhead
    subst hhead
    obtain rfl | rfl | rfl | rfl := hc <;> decide

section

variable {style : Style} (hstyle : style.Blank)
include hstyle

theorem ends_writeItems (depth : Nat) (items : List Document) (rest : List Char) :
    Numeral.Ends (writeItems style depth items rest) := by
  cases items with
  | nil =>
    rw [writeItems]
    exact ends_of_blanks (hstyle.lineBreak depth) (by simp [Numeral.Ends])
  | cons d more => simp [writeItems, Numeral.Ends]

theorem ends_writeEntries (depth : Nat) (entries : List (String × Document)) (rest : List Char) :
    Numeral.Ends (writeEntries style depth entries rest) := by
  cases entries with
  | nil =>
    rw [writeEntries]
    exact ends_of_blanks (hstyle.lineBreak depth) (by simp [Numeral.Ends])
  | cons entry more => simp [writeEntries, Numeral.Ends]

theorem reads_colon (rest : List Char) : Token.Reads (style.colon ++ rest) [.colon] rest := by
  obtain ⟨blanks, hcolon, hblanks⟩ := hstyle.colon
  rw [hcolon]
  exact (Token.reads_mark rfl _).trans (Token.reads_blanks hblanks rest)

theorem reads_key (depth : Nat) (key : String) (rest : List Char) :
    Token.Reads (style.lineBreak depth ++ literal key ++ style.colon ++ rest)
      [.text key, .colon] rest := by
  rw [List.append_assoc, List.append_assoc]
  exact (Token.reads_blanks (hstyle.lineBreak depth) _).trans
    ((Token.reads_literal key _).trans (reads_colon hstyle rest))

mutual

/-- A number would run on into digits after it, so the rest must end numbers. -/
theorem reads_write (depth : Nat) : (d : Document) → {rest : List Char} → Numeral.Ends rest →
    Token.Reads (d.write style depth rest) d.tokens rest
  | .null, _, _ => Token.reads_of_read? ['u', 'l', 'l'] rfl rfl
  | .bool true, _, _ => Token.reads_of_read? ['r', 'u', 'e'] rfl rfl
  | .bool false, _, _ => Token.reads_of_read? ['a', 'l', 's', 'e'] rfl rfl
  | .number n, _, hrest => Token.reads_number n hrest
  | .string text, rest, _ => Token.reads_literal text rest
  | .array [], rest, _ => (Token.reads_mark rfl _).trans (Token.reads_mark rfl rest)
  | .array (d :: more), rest, _ => by
    have hbreak := Token.reads_blanks (hstyle.lineBreak (depth + 1))
      (d.write style (depth + 1) (writeItems style depth more rest))
    have hfirst := reads_write (depth + 1) d (ends_writeItems hstyle depth more rest)
    have hmore := reads_writeItems depth more rest
    exact (Token.reads_mark rfl _).trans (hbreak.trans (hfirst.trans hmore))
  | .object [], rest, _ => (Token.reads_mark rfl _).trans (Token.reads_mark rfl rest)
  | .object ((key, d) :: more), rest, _ => by
    have hkey := reads_key hstyle (depth + 1) key
      (d.write style (depth + 1) (writeEntries style depth more rest))
    have hfirst := reads_write (depth + 1) d (ends_writeEntries hstyle depth more rest)
    have hmore := reads_writeEntries depth more rest
    exact (Token.reads_mark rfl _).trans (hkey.trans (hfirst.trans hmore))

theorem reads_writeItems (depth : Nat) : (items : List Document) → (rest : List Char) →
    Token.Reads (writeItems style depth items rest) (itemTokens items) rest
  | [], rest =>
    (Token.reads_blanks (hstyle.lineBreak depth) _).trans (Token.reads_mark rfl rest)
  | d :: more, rest => by
    have hbreak := Token.reads_blanks (hstyle.lineBreak (depth + 1))
      (d.write style (depth + 1) (writeItems style depth more rest))
    have hitem := reads_write (depth + 1) d (ends_writeItems hstyle depth more rest)
    have hmore := reads_writeItems depth more rest
    exact (Token.reads_mark rfl _).trans (hbreak.trans (hitem.trans hmore))

theorem reads_writeEntries (depth : Nat) : (entries : List (String × Document)) →
    (rest : List Char) →
    Token.Reads (writeEntries style depth entries rest) (entryTokens entries) rest
  | [], rest =>
    (Token.reads_blanks (hstyle.lineBreak depth) _).trans (Token.reads_mark rfl rest)
  | (key, d) :: more, rest => by
    have hkey := reads_key hstyle (depth + 1) key
      (d.write style (depth + 1) (writeEntries style depth more rest))
    have hvalue := reads_write (depth + 1) d (ends_writeEntries hstyle depth more rest)
    have hmore := reads_writeEntries depth more rest
    exact (Token.reads_mark rfl _).trans (hkey.trans (hvalue.trans hmore))

end

/-- A written document is its tokens with blanks between them. -/
theorem readAll_write (d : Document) : Token.readAll (d.write style 0 []) = some d.tokens := by
  have hreads : Token.Reads (d.write style 0 []) d.tokens [] :=
    reads_write hstyle 0 d (by simp [Numeral.Ends])
  rw [hreads, Token.readAll, Option.map_some, List.append_nil]

end

end Document

/-! ## From tokens to documents -/

/-- An array or object that is not closed yet, with what it holds so far. -/
inductive Open where
  | array (items : List Document)
  | object (entries : List (String × Document)) (key : String)

/-- What may come next. The open arrays and objects stand on a stack, the innermost first. -/
inductive Reader where
  | value (stack : List Open)
  | firstItem (stack : List Open)
  | firstKey (stack : List Open)
  | laterKey (entries : List (String × Document)) (stack : List Open)
  | afterKey (entries : List (String × Document)) (key : String) (stack : List Open)
  | afterValue (d : Document) (stack : List Open)

namespace Reader

/-- The first token of a document. -/
def begin (stack : List Open) : Token → Option Reader
  | .null => some (.afterValue .null stack)
  | .bool b => some (.afterValue (.bool b) stack)
  | .number n => some (.afterValue (.number n) stack)
  | .text text => some (.afterValue (.string text) stack)
  | .openArray => some (.firstItem stack)
  | .openObject => some (.firstKey stack)
  | _ => none

def readKey (entries : List (String × Document)) (stack : List Open) : Token → Option Reader
  | .text key => some (.afterKey entries key stack)
  | _ => none

/-- The token after a document that stands in the innermost open array or object. -/
def continue? (d : Document) : List Open → Token → Option Reader
  | .array items :: stack, .comma => some (.value (.array (items ++ [d]) :: stack))
  | .array items :: stack, .closeArray => some (.afterValue (.array (items ++ [d])) stack)
  | .object entries key :: stack, .comma => some (.laterKey (entries ++ [(key, d)]) stack)
  | .object entries key :: stack, .closeObject =>
    some (.afterValue (.object (entries ++ [(key, d)])) stack)
  | _, _ => none

def step : Reader → Token → Option Reader
  | .value stack, token => begin stack token
  | .firstItem stack, .closeArray => some (.afterValue (.array []) stack)
  | .firstItem stack, token => begin (.array [] :: stack) token
  | .firstKey stack, .closeObject => some (.afterValue (.object []) stack)
  | .firstKey stack, token => readKey [] stack token
  | .laterKey entries stack, token => readKey entries stack token
  | .afterKey entries key stack, .colon => some (.value (.object entries key :: stack))
  | .afterKey _ _ _, _ => none
  | .afterValue d stack, token => continue? d stack token

def run (reader : Reader) (tokens : List Token) : Option Reader := tokens.foldlM step reader

/-- A document is complete when nothing is open any more. -/
def result? : Reader → Option Document
  | .afterValue d [] => some d
  | _ => none

theorem run_append (reader : Reader) (first second : List Token) :
    reader.run (first ++ second) = (reader.run first).bind (·.run second) :=
  List.foldlM_append ..

/-- No document begins with the end of an array, so the first item is read as any other. -/
theorem run_firstItem (d : Document) (stack : List Open) :
    run (.firstItem stack) d.tokens = run (.value (.array [] :: stack)) d.tokens := by
  cases d with
  | array items => cases items <;> rfl
  | object entries => cases entries <;> rfl
  | _ => rfl

mutual

theorem run_tokens : (d : Document) → (stack : List Open) →
    run (.value stack) d.tokens = some (.afterValue d stack)
  | .null, _ => rfl
  | .bool _, _ => rfl
  | .number _, _ => rfl
  | .string _, _ => rfl
  | .array [], _ => rfl
  | .array (d :: more), stack => by
    rw [Document.tokens]
    change run (.firstItem stack) (d.tokens ++ Document.itemTokens more) = _
    rw [run_append, run_firstItem, run_tokens d]
    exact run_itemTokens [] d more stack
  | .object [], _ => rfl
  | .object ((key, d) :: more), stack => by
    rw [Document.tokens]
    change run (.value (.object [] key :: stack)) (d.tokens ++ Document.entryTokens more) = _
    rw [run_append, run_tokens d]
    exact run_entryTokens [] key d more stack

theorem run_itemTokens (items : List Document) (d : Document) : (more : List Document) →
    (stack : List Open) →
    run (.afterValue d (.array items :: stack)) (Document.itemTokens more) =
      some (.afterValue (.array (items ++ d :: more)) stack)
  | [], _ => rfl
  | next :: more, stack => by
    have hmore := run_itemTokens (items ++ [d]) next more stack
    rw [List.append_assoc, List.singleton_append] at hmore
    rw [Document.itemTokens]
    change run (.value (.array (items ++ [d]) :: stack))
      (next.tokens ++ Document.itemTokens more) = _
    rw [run_append, run_tokens next]
    exact hmore

theorem run_entryTokens (entries : List (String × Document)) (key : String) (d : Document) :
    (more : List (String × Document)) → (stack : List Open) →
    run (.afterValue d (.object entries key :: stack)) (Document.entryTokens more) =
      some (.afterValue (.object (entries ++ (key, d) :: more)) stack)
  | [], _ => rfl
  | (nextKey, next) :: more, stack => by
    have hmore := run_entryTokens (entries ++ [(key, d)]) nextKey next more stack
    rw [List.append_assoc, List.singleton_append] at hmore
    rw [Document.entryTokens]
    change run (.value (.object (entries ++ [(key, d)]) nextKey :: stack))
      (next.tokens ++ Document.entryTokens more) = _
    rw [run_append, run_tokens next]
    exact hmore

end

end Reader

/-! ## Documents read back -/

namespace Document

/-- The one document in a text, if the whole text is one. -/
def read? (text : String) : Option Document :=
  (Token.readAll text.toList).bind
    (fun tokens => ((Reader.value []).run tokens).bind Reader.result?)

theorem read?_write {style : Style} (hstyle : style.Blank) (d : Document) :
    read? (String.ofList (d.write style 0 [])) = some d := by
  rw [read?, String.toList_ofList, readAll_write hstyle, Option.bind_some, Reader.run_tokens]
  rfl

/-- The text of a document as it is sent reads back to that very document, so no two documents share
a text. -/
theorem compact_reads_back (d : Document) :
    read? d.compact = some d ∧ ∀ other : Document, d.compact = other.compact ↔ d = other := by
  have hread (d : Document) : read? d.compact = some d := read?_write Style.blank_compact d
  refine ⟨hread d, fun other => ⟨fun h => ?_, fun h => congrArg compact h⟩⟩
  have hother := hread other
  rw [← h, hread d] at hother
  exact Option.some.inj hother

example : read? " [ 7, \"\\u0041\\n\", \x7b\"k\" : []\x7d ]" =
    some (.array [.number (.int 7 (by decide)), .string "A\n", .object [("k", .array [])]]) := by
  cbv

example : read? "[1,]" = none := by cbv

/-- So does the text for people. -/
theorem read?_pretty (d : Document) : read? d.pretty = some d := read?_write Style.blank_indented d

end Document

end SearchQuery
