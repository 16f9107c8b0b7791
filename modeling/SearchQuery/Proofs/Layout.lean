import SearchQuery.Document.Text
import SearchQuery.Proofs.Numeral

/-!
# The two styles side by side

The text for people is the text that is sent with blanks between its tokens. It is read here
character by character, with the place of each character and the number of open brackets. Without its
blanks it is the compact text, each line is indented by the brackets around it, and an empty array or
object stays on its line.
-/

namespace SearchQuery

/-! ## Places in a text -/

/-- Where a character stands. -/
inductive Place where
  | outside
  | inLiteral
  | afterBackslash
deriving DecidableEq

namespace Place

/-- The place after a character. A quote ends a literal unless a backslash stands before it. -/
def next : Place → Char → Place
  | .outside, c => if c = '"' then .inLiteral else .outside
  | .inLiteral, c =>
    if c = '"' then .outside else if c = '\\' then .afterBackslash else .inLiteral
  | .afterBackslash, _ => .inLiteral

/-- The text without the spaces and newlines outside its literals. -/
def deleteBlanks : Place → List Char → List Char
  | _, [] => []
  | place, c :: rest =>
    if place = .outside ∧ (c = ' ' ∨ c = '\n') then deleteBlanks (place.next c) rest
    else c :: deleteBlanks (place.next c) rest

/-- From one place to another the text stays inside one literal, without a line break in it. The
closing quote may be its last character. -/
inductive Quoted : Place → List Char → Place → Prop where
  | nil (place : Place) : Quoted place [] place
  | cons {place after : Place} {c : Char} {rest : List Char} (inside : place ≠ .outside)
      (unbroken : c ≠ '\n') (more : Quoted (place.next c) rest after) :
      Quoted place (c :: rest) after

theorem Quoted.append {place middle after : Place} {first second : List Char}
    (hfirst : Quoted place first middle) (hsecond : Quoted middle second after) :
    Quoted place (first ++ second) after := by
  induction hfirst with
  | nil place => exact hsecond
  | cons inside unbroken _ ih => exact .cons inside unbroken (ih hsecond)

theorem quoted_plain {c : Char} (hquote : c ≠ '"') (hbackslash : c ≠ '\\')
    (hnewline : c ≠ '\n') : Quoted .inLiteral [c] .inLiteral := by
  refine .cons nofun hnewline ?_
  rw [next, if_neg hquote, if_neg hbackslash]
  exact .nil _

theorem quoted_escape {c : Char} (h : c ≠ '\n') : Quoted .inLiteral ['\\', c] .inLiteral :=
  .cons nofun (by decide) (.cons nofun h (.nil _))

theorem quoted_hexDigit (n : Nat) : Quoted .inLiteral [hexDigit n] .inLiteral := by
  have hall : ∀ n < 16, hexDigit n ≠ '"' ∧ hexDigit n ≠ '\\' ∧ hexDigit n ≠ '\n' := by decide
  have hdigit : hexDigit n = hexDigit (n % 16) := by rw [hexDigit, hexDigit, Nat.mod_mod]
  obtain ⟨hquote, hbackslash, hnewline⟩ := hall (n % 16) (Nat.mod_lt n (by decide))
  rw [hdigit]
  exact quoted_plain hquote hbackslash hnewline

theorem quoted_escapeChar (c : Char) : Quoted .inLiteral (escapeChar c) .inLiteral := by
  unfold escapeChar
  split
  iterate 7 exact quoted_escape (by decide)
  · rename_i hquote hbackslash _ _ hnewline _ _
    split
    · have hcode := (quoted_hexDigit (c.toNat / 16)).append (quoted_hexDigit c.toNat)
      have hzeros : Quoted .inLiteral ['0', '0'] .inLiteral :=
        (quoted_hexDigit 0).append (quoted_hexDigit 0)
      exact (quoted_escape (by decide)).append (hzeros.append hcode)
    · exact quoted_plain hquote hbackslash hnewline

theorem quoted_literal (text : String) :
    Quoted .inLiteral (text.toList.flatMap escapeChar ++ ['"']) .outside := by
  induction text.toList with
  | nil => exact .cons nofun (by decide) (.nil _)
  | cons c more ih =>
    rw [List.flatMap_cons, List.append_assoc]
    exact (quoted_escapeChar c).append ih

theorem deleteBlanks_quoted {place after : Place} {text : List Char}
    (h : Quoted place text after) (rest : List Char) :
    deleteBlanks place (text ++ rest) = text ++ deleteBlanks after rest := by
  induction h with
  | nil place => rfl
  | cons inside _ _ ih =>
    rw [List.cons_append, deleteBlanks, if_neg (fun hblank => inside hblank.1), ih,
      List.cons_append]

theorem deleteBlanks_literal (text : String) (rest : List Char) :
    deleteBlanks .outside (literal text ++ rest) = literal text ++ deleteBlanks .outside rest := by
  rw [literal, List.cons_append, List.cons_append, deleteBlanks, if_neg (by decide)]
  exact congrArg ('"' :: ·) (deleteBlanks_quoted (quoted_literal text) rest)

theorem deleteBlanks_cons {c : Char} (h : c ≠ '"' ∧ c ≠ ' ' ∧ c ≠ '\n') (rest : List Char) :
    deleteBlanks .outside (c :: rest) = c :: deleteBlanks .outside rest := by
  rw [deleteBlanks, if_neg (by simp [h]), next, if_neg h.1]

/-- Outside a literal a plain character says nothing about blanks, lines or brackets. -/
def Plain (c : Char) : Prop := c ∉ ['"', ' ', '\n', ',', '[', ']', '{', '}']

theorem Plain.ne {c : Char} (h : Plain c) : (c ≠ '"' ∧ c ≠ ' ' ∧ c ≠ '\n') ∧ c ≠ ',' := by
  unfold Plain at h
  grind

theorem deleteBlanks_plain {text : List Char} (h : ∀ c ∈ text, Plain c) (rest : List Char) :
    deleteBlanks .outside (text ++ rest) = text ++ deleteBlanks .outside rest := by
  induction text with
  | nil => rfl
  | cons c more ih =>
    rw [List.forall_mem_cons] at h
    rw [List.cons_append, deleteBlanks_cons h.1.ne.1, ih h.2, List.cons_append]

theorem deleteBlanks_lineBreak (depth : Nat) (rest : List Char) :
    deleteBlanks .outside (Style.indented.lineBreak depth ++ rest) = deleteBlanks .outside rest := by
  have hspaces (n : Nat) : deleteBlanks .outside (List.replicate n ' ' ++ rest) =
      deleteBlanks .outside rest := by
    induction n with
    | zero => rfl
    | succ n ih => exact ih
  exact hspaces (2 * depth)

end Place

theorem Number.plain_text (number : Number) : ∀ c ∈ number.text, Place.Plain c := by
  intro c hc
  obtain ⟨n, hformed, htext, -⟩ := number.exists_numeral
  rw [← htext] at hc
  obtain hdigit | hmark := hformed.mem_text hc
  · intro hmem
    simp only [List.mem_cons, List.not_mem_nil, or_false] at hmem
    obtain rfl | rfl | rfl | rfl | rfl | rfl | rfl | rfl := hmem <;> simp at hdigit
  · have hmarks : ∀ c ∈ ['-', '+', '.', 'e'], Place.Plain c := by simp [Place.Plain]
    exact hmarks c hmark

/-! ## The indented text without its blanks -/

namespace Document

open Place

theorem deleteBlanks_key (depth : Nat) (key : String) (rest : List Char) :
    deleteBlanks .outside
        (Style.indented.lineBreak depth ++ literal key ++ Style.indented.colon ++ rest) =
      Style.compact.lineBreak depth ++ literal key ++ Style.compact.colon ++
        deleteBlanks .outside rest := by
  have hcolon : deleteBlanks .outside (Style.indented.colon ++ rest) =
      Style.compact.colon ++ deleteBlanks .outside rest := rfl
  rw [List.append_assoc, List.append_assoc, deleteBlanks_lineBreak, deleteBlanks_literal, hcolon,
    List.append_assoc, List.append_assoc]
  rfl

mutual

/-- The compact text has no depth to show, so both texts can be taken at the same one. -/
theorem deleteBlanks_write (depth : Nat) : (d : Document) → (rest : List Char) →
    deleteBlanks .outside (d.write .indented depth rest) =
      d.write .compact depth (deleteBlanks .outside rest)
  | .null, _ => rfl
  | .bool true, _ => rfl
  | .bool false, _ => rfl
  | .number n, rest => deleteBlanks_plain n.plain_text rest
  | .string text, rest => deleteBlanks_literal text rest
  | .array [], _ => rfl
  | .array (d :: more), rest => by
    rw [write, write, List.cons_append, deleteBlanks_cons (by decide), deleteBlanks_lineBreak,
      deleteBlanks_write (depth + 1) d, deleteBlanks_writeItems depth more]
    rfl
  | .object [], _ => rfl
  | .object ((key, d) :: more), rest => by
    rw [write, write]
    simp only [List.cons_append]
    rw [deleteBlanks_cons (by decide), deleteBlanks_key, deleteBlanks_write (depth + 1) d,
      deleteBlanks_writeEntries depth more]

theorem deleteBlanks_writeItems (depth : Nat) : (items : List Document) → (rest : List Char) →
    deleteBlanks .outside (writeItems .indented depth items rest) =
      writeItems .compact depth items (deleteBlanks .outside rest)
  | [], rest => by
    rw [writeItems, writeItems, deleteBlanks_lineBreak]
    rfl
  | d :: more, rest => by
    rw [writeItems, writeItems, List.cons_append, deleteBlanks_cons (by decide),
      deleteBlanks_lineBreak, deleteBlanks_write (depth + 1) d, deleteBlanks_writeItems depth more]
    rfl

theorem deleteBlanks_writeEntries (depth : Nat) : (entries : List (String × Document)) →
    (rest : List Char) →
    deleteBlanks .outside (writeEntries .indented depth entries rest) =
      writeEntries .compact depth entries (deleteBlanks .outside rest)
  | [], rest => by
    rw [writeEntries, writeEntries, deleteBlanks_lineBreak]
    rfl
  | (key, d) :: more, rest => by
    rw [writeEntries, writeEntries]
    simp only [List.cons_append]
    rw [deleteBlanks_cons (by decide), deleteBlanks_key, deleteBlanks_write (depth + 1) d,
      deleteBlanks_writeEntries depth more]

end

end Document

/-! ## Lines -/

def closing? (c : Char) : Option Char :=
  if c = '[' then some ']' else if c = '{' then some '}' else none

def isClosing (c : Char) : Bool := c = ']' ∨ c = '}'

theorem isClosing_of_closing? {c close : Char} (h : closing? c = some close) :
    isClosing close = true := by
  unfold closing? at h
  grind [isClosing]

theorem Place.Plain.closing?_eq_none {c : Char} (h : Plain c) : closing? c = none := by
  unfold Plain at h
  grind [closing?]

theorem Place.Plain.isClosing_eq_false {c : Char} (h : Plain c) : isClosing c = false := by
  unfold Plain at h
  grind [isClosing]

/-- How far a text is read: the place of the next character, and how many brackets are open. -/
structure Scan where
  place : Place
  depth : Nat

namespace Scan

def start : Scan := ⟨.outside, 0⟩

def next (scan : Scan) (c : Char) : Scan where
  place := scan.place.next c
  depth :=
    if scan.place ≠ .outside then scan.depth
    else if (closing? c).isSome then scan.depth + 1
    else if isClosing c then scan.depth - 1
    else scan.depth

/-- How many brackets are open at a token that begins with this character. A closing bracket counts
as closed. -/
def openAt (scan : Scan) (c : Char) : Nat := if isClosing c then scan.depth - 1 else scan.depth

/-- Here begins a line: two spaces for each open bracket, and a token after them. -/
def StartsLine (scan : Scan) (text : List Char) : Prop :=
  scan.place = .outside ∧ ∃ c rest,
    text = List.replicate (2 * scan.openAt c) ' ' ++ c :: rest ∧ c ≠ ' ' ∧ c ≠ '\n'

/-- What may stand after a character. -/
structure Follows (scan : Scan) (c : Char) (rest : List Char) : Prop where
  newline : c = '\n' → StartsLine (scan.next c) rest
  comma : scan.place = .outside → c = ',' → rest.head? = some '\n'
  /-- A line ends here, but the two brackets of an empty array or object stand together. -/
  opening : scan.place = .outside → ∀ close ∈ closing? c, rest.head? = some close ∨
    (rest.head? = some '\n' ∧ (Place.deleteBlanks .outside rest).head? ≠ some close)

/-- So it is after every character of a text. -/
def LaidOut : Scan → List Char → Prop
  | _, [] => True
  | scan, c :: rest => Follows scan c rest ∧ LaidOut (scan.next c) rest

theorem follows_of_ne {scan : Scan} {c : Char} (hnewline : c ≠ '\n') (hcomma : c ≠ ',')
    (hclosing : closing? c = none) (rest : List Char) : scan.Follows c rest where
  newline h := absurd h hnewline
  comma _ h := absurd h hcomma
  opening _ close hclose := by
    rw [hclosing] at hclose
    exact nomatch hclose

theorem follows_inside {scan : Scan} {c : Char} (hplace : scan.place ≠ .outside)
    (hnewline : c ≠ '\n') (rest : List Char) : scan.Follows c rest where
  newline h := absurd h hnewline
  comma h := absurd h hplace
  opening h := absurd h hplace

theorem laidOut_quoted {place after : Place} {text : List Char} (h : place.Quoted text after)
    {depth : Nat} {rest : List Char} (hrest : LaidOut ⟨after, depth⟩ rest) :
    LaidOut ⟨place, depth⟩ (text ++ rest) := by
  induction h with
  | nil place => exact hrest
  | @cons place after c more inside unbroken _ ih =>
    have hnext : next ⟨place, depth⟩ c = ⟨place.next c, depth⟩ := by
      rw [next, if_pos inside]
    refine ⟨follows_inside inside unbroken _, ?_⟩
    rw [hnext]
    exact ih hrest

variable {depth : Nat} {rest : List Char}

theorem laidOut_literal (text : String) (hrest : LaidOut ⟨.outside, depth⟩ rest) :
    LaidOut ⟨.outside, depth⟩ (literal text ++ rest) := by
  refine ⟨follows_of_ne (by decide) (by decide) rfl _, ?_⟩
  exact laidOut_quoted (Place.quoted_literal text) hrest

theorem next_plain {c : Char} (h : Place.Plain c) :
    next ⟨.outside, depth⟩ c = ⟨.outside, depth⟩ := by
  simp [next, Place.next, h.ne.1, h.closing?_eq_none, h.isClosing_eq_false]

theorem laidOut_plain (text : List Char) (h : ∀ c ∈ text, Place.Plain c)
    (hrest : LaidOut ⟨.outside, depth⟩ rest) : LaidOut ⟨.outside, depth⟩ (text ++ rest) := by
  induction text with
  | nil => exact hrest
  | cons c more ih =>
    obtain ⟨hc, hmore⟩ := List.forall_mem_cons.1 h
    refine ⟨follows_of_ne hc.ne.1.2.2 hc.ne.2 hc.closing?_eq_none _, ?_⟩
    rw [next_plain hc]
    exact ih hmore

theorem laidOut_spaces (n : Nat) (hrest : LaidOut ⟨.outside, depth⟩ rest) :
    LaidOut ⟨.outside, depth⟩ (List.replicate n ' ' ++ rest) := by
  induction n with
  | zero => exact hrest
  | succ n ih => exact ⟨follows_of_ne (by decide) (by decide) rfl _, ih⟩

theorem laidOut_lineBreak {c : Char} (hblank : c ≠ ' ' ∧ c ≠ '\n') {n : Nat}
    (hopen : openAt ⟨.outside, depth⟩ c = n) (hrest : LaidOut ⟨.outside, depth⟩ (c :: rest)) :
    LaidOut ⟨.outside, depth⟩ (Style.indented.lineBreak n ++ c :: rest) := by
  have hline : StartsLine ⟨.outside, depth⟩ (List.replicate (2 * n) ' ' ++ c :: rest) :=
    ⟨rfl, c, rest, by rw [hopen], hblank⟩
  have hfollows : Follows ⟨.outside, depth⟩ '\n' (List.replicate (2 * n) ' ' ++ c :: rest) :=
    ⟨fun _ => hline, nofun, nofun⟩
  exact ⟨hfollows, laidOut_spaces (2 * n) hrest⟩

/-- The text begins with a token that closes nothing. -/
def Leads (text : List Char) : Prop :=
  ∃ c rest, text = c :: rest ∧ (c ≠ ' ' ∧ c ≠ '\n') ∧ isClosing c = false

theorem follows_lineBreak {scan : Scan} {c : Char} (hnewline : c ≠ '\n') (n : Nat)
    {text : List Char} (hleads : Leads text) :
    scan.Follows c (Style.indented.lineBreak n ++ text) where
  newline h := absurd h hnewline
  comma _ _ := rfl
  opening _ close hclose := by
    obtain ⟨first, more, rfl, hblank, hfirst⟩ := hleads
    have hhead : (Place.deleteBlanks .outside
        (Style.indented.lineBreak n ++ first :: more)).head? = some first := by
      rw [Place.deleteBlanks_lineBreak, Place.deleteBlanks, if_neg (by simp [hblank])]
      rfl
    refine .inr ⟨rfl, ?_⟩
    rw [hhead]
    rintro ⟨⟩
    rw [isClosing_of_closing? hclose] at hfirst
    exact nomatch hfirst

/-- A comma or an opening bracket before a line. -/
theorem laidOut_break {mark : Char} (hmark : mark ≠ '\n') {n : Nat}
    (hnext : next ⟨.outside, depth⟩ mark = ⟨.outside, n⟩) {text : List Char} (hleads : Leads text)
    (htext : LaidOut ⟨.outside, n⟩ text) :
    LaidOut ⟨.outside, depth⟩ (mark :: (Style.indented.lineBreak n ++ text)) := by
  refine ⟨follows_lineBreak hmark n hleads, ?_⟩
  rw [hnext]
  obtain ⟨first, more, rfl, hblank, hfirst⟩ := hleads
  have hopen : openAt ⟨.outside, n⟩ first = n := if_neg (by simp [hfirst])
  exact laidOut_lineBreak hblank hopen htext

theorem laidOut_close {close : Char} (h : close = ']' ∨ close = '}')
    (hrest : LaidOut ⟨.outside, depth⟩ rest) :
    LaidOut ⟨.outside, depth + 1⟩ (Style.indented.lineBreak depth ++ close :: rest) := by
  obtain rfl | rfl := h <;>
    exact laidOut_lineBreak (by decide) rfl ⟨follows_of_ne (by decide) (by decide) rfl rest, hrest⟩

theorem follows_closing {scan : Scan} {opening close : Char} (h : closing? opening = some close)
    (rest : List Char) : scan.Follows opening (close :: rest) where
  newline := by
    rintro rfl
    exact nomatch h
  comma _ := by
    rintro rfl
    exact nomatch h
  opening _ _ hother := .inl (h.symm.trans hother)

theorem laidOut_empty {opening close : Char}
    (h : (opening = '[' ∧ close = ']') ∨ (opening = '{' ∧ close = '}'))
    (hrest : LaidOut ⟨.outside, depth⟩ rest) :
    LaidOut ⟨.outside, depth⟩ (opening :: close :: rest) := by
  obtain ⟨rfl, rfl⟩ | ⟨rfl, rfl⟩ := h <;>
    exact ⟨follows_closing rfl rest, follows_of_ne (by decide) (by decide) rfl rest, hrest⟩

theorem leads_literal (text : String) (rest : List Char) : Leads (literal text ++ rest) :=
  ⟨'"', _, rfl, by decide, rfl⟩

theorem leads_write (style : Style) (depth : Nat) (d : Document) (rest : List Char) :
    Leads (d.write style depth rest) := by
  cases d with
  | null => exact ⟨_, _, rfl, by decide, rfl⟩
  | bool b => cases b <;> exact ⟨_, _, rfl, by decide, rfl⟩
  | number n =>
    obtain ⟨c, more, htext, -⟩ := n.exists_text_eq_cons
    have hplain := n.plain_text c (by rw [htext]; exact List.mem_cons_self)
    refine ⟨c, more ++ rest, ?_, hplain.ne.1.2, hplain.isClosing_eq_false⟩
    rw [Document.write, htext, List.cons_append]
  | string text => exact leads_literal text rest
  | array items => cases items <;> exact ⟨_, _, rfl, by decide, rfl⟩
  | object entries => cases entries <;> exact ⟨_, _, rfl, by decide, rfl⟩

theorem laidOut_key (key : String) (hrest : LaidOut ⟨.outside, depth⟩ rest) :
    LaidOut ⟨.outside, depth⟩ (literal key ++ (Style.indented.colon ++ rest)) := by
  have hspace : LaidOut ⟨.outside, depth⟩ (' ' :: rest) := laidOut_spaces 1 hrest
  exact laidOut_literal key (laidOut_plain [':'] (by simp [Place.Plain]) hspace)

end Scan

namespace Document

open Scan

mutual

/-- Where a document ends, as many brackets are open as where it begins. So it is enough that the rest
is laid out from there. -/
theorem laidOut_write (depth : Nat) : (d : Document) → {rest : List Char} →
    LaidOut ⟨.outside, depth⟩ rest → LaidOut ⟨.outside, depth⟩ (d.write .indented depth rest)
  | .null, _, hrest => laidOut_plain ['n', 'u', 'l', 'l'] (by simp [Place.Plain]) hrest
  | .bool true, _, hrest => laidOut_plain ['t', 'r', 'u', 'e'] (by simp [Place.Plain]) hrest
  | .bool false, _, hrest => laidOut_plain ['f', 'a', 'l', 's', 'e'] (by simp [Place.Plain]) hrest
  | .number n, _, hrest => laidOut_plain n.text n.plain_text hrest
  | .string text, _, hrest => laidOut_literal text hrest
  | .array [], _, hrest => laidOut_empty (.inl ⟨rfl, rfl⟩) hrest
  | .array (d :: more), rest, hrest => by
    have hmore := laidOut_writeItems depth more hrest
    have hfirst := laidOut_write (depth + 1) d hmore
    exact laidOut_break (by decide) rfl (leads_write .indented (depth + 1) d _) hfirst
  | .object [], _, hrest => laidOut_empty (.inr ⟨rfl, rfl⟩) hrest
  | .object ((key, d) :: more), rest, hrest => by
    have hmore := laidOut_writeEntries depth more hrest
    have hfirst := laidOut_key key (laidOut_write (depth + 1) d hmore)
    rw [write]
    simp only [List.cons_append, List.append_assoc]
    exact laidOut_break (by decide) rfl (leads_literal key _) hfirst

theorem laidOut_writeItems (depth : Nat) : (items : List Document) → {rest : List Char} →
    LaidOut ⟨.outside, depth⟩ rest →
    LaidOut ⟨.outside, depth + 1⟩ (writeItems .indented depth items rest)
  | [], _, hrest => laidOut_close (.inl rfl) hrest
  | d :: more, rest, hrest => by
    have hmore := laidOut_writeItems depth more hrest
    have hitem := laidOut_write (depth + 1) d hmore
    exact laidOut_break (by decide) rfl (leads_write .indented (depth + 1) d _) hitem

theorem laidOut_writeEntries (depth : Nat) : (entries : List (String × Document)) →
    {rest : List Char} → LaidOut ⟨.outside, depth⟩ rest →
    LaidOut ⟨.outside, depth + 1⟩ (writeEntries .indented depth entries rest)
  | [], _, hrest => laidOut_close (.inr rfl) hrest
  | (key, d) :: more, rest, hrest => by
    have hmore := laidOut_writeEntries depth more hrest
    have hentry := laidOut_key key (laidOut_write (depth + 1) d hmore)
    rw [writeEntries]
    simp only [List.cons_append, List.append_assoc]
    exact laidOut_break (by decide) rfl (leads_literal key _) hentry

end

example : pretty (.object [("a \"b", .array []), ("c", .array [.null, .object []])]) =
    "\x7b\n  \"a \\\"b\": [],\n  \"c\": [\n    null,\n    \x7b\x7d\n  ]\n\x7d" := by
  decide +kernel

end Document

end SearchQuery
