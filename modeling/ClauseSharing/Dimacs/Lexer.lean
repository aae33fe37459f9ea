import ClauseSharing.Breach
import ClauseSharing.Dimacs.Token

/-!
Cutting a text into tokens.

Blanks separate tokens, except that the zero which ends a clause stands for itself whatever
follows. A number runs up to the next blank. Where a number is due, anything but a digit is a
breach.

Each step shortens what is left of the text (`length_next_lt`), so the cutting comes to an end.

This is how files are read. A builder takes any tokens, however they were cut, and whatever made the
cutting stop.
-/

namespace ClauseSharing.Dimacs

/-- Why a text is no formula. Places are counted in bytes from zero; at the end of the text the
place is that of the last byte. -/
inductive LexError where
  | unexpectedByte (place : Nat) (encountered expected : Option UInt8)
  | expectedBlank (place : Nat) (encountered : Option UInt8)
  /-- A number that does not fit into 32 bits without sign, up to the digit that breaks it. -/
  | numberTooLarge (place value : Nat)
  /-- A literal that is zero or does not fit into 32 bits with a sign. -/
  | literalOutOfRange (place value : Nat)
  | duplicateProblem (place variableCount clauseCount : Nat)
  | invalidTokenStart (place : Nat) (encountered : UInt8)
deriving DecidableEq, Repr

/-- A byte that may be missing, as it stands in messages. -/
def byteText : Option UInt8 → String
  | some byte => "Some(" ++ toString byte.toNat ++ ")"
  | none => "None"

def LexError.message : LexError → String
  | .unexpectedByte place encountered expected =>
    recordText "UnexpectedByte"
      [("at", toString place), ("encountered", byteText encountered),
        ("expected", byteText expected)]
  | .expectedBlank place encountered =>
    recordText "ExpectedWhitespace" [("at", toString place), ("encountered", byteText encountered)]
  | .numberTooLarge place value =>
    recordText "OutOfRangeU32" [("at", toString place), ("encountered", toString value)]
  | .literalOutOfRange place value =>
    recordText "OutOfRangeI32" [("at", toString place), ("encountered", toString value)]
  | .duplicateProblem place variableCount clauseCount =>
    recordText "DuplicateProblem"
      [("at", toString place),
        ("duplicate", recordText "Problem"
          [("num_variables", toString variableCount), ("num_clauses", toString clauseCount)])]
  | .invalidTokenStart place encountered =>
    recordText "InvalidTokenStart"
      [("at", toString place), ("encountered", toString encountered.toNat)]

/-- Space, tabulator, line feed, form feed and carriage return. -/
def isBlank (byte : UInt8) : Bool :=
  byte == 32 || byte == 9 || byte == 10 || byte == 12 || byte == 13

def isDigit (byte : UInt8) : Bool := 48 ≤ byte && byte ≤ 57

/-- A place in a text. -/
structure Cursor where
  /-- The number of bytes before the place. -/
  offset : Nat
  /-- The bytes after the place. -/
  rest : List UInt8
deriving DecidableEq, Repr

/-- Why the cutting stopped. -/
inductive LexFault where
  | error (error : LexError)
  | breach (breach : Breach)
deriving DecidableEq, Repr

namespace Cursor

/-- The place to report: that of the next byte, or of the last byte at the end of the text. -/
def place (c : Cursor) : Nat := if c.rest.isEmpty then c.offset - 1 else c.offset

def advance (c : Cursor) : Cursor := ⟨c.offset + 1, c.rest.tail⟩

/-- The place after all bytes of a kind. -/
def skip (c : Cursor) (kind : UInt8 → Bool) : Cursor :=
  ⟨c.offset + (c.rest.takeWhile kind).length, c.rest.dropWhile kind⟩

/-- Skips blanks, of which there must be one. -/
def requireBlanks (c : Cursor) : Except LexFault Cursor :=
  if c.rest.head?.any isBlank then .ok (c.skip isBlank)
  else .error (.error (.expectedBlank c.place c.rest.head?))

def requireBytes (c : Cursor) : List UInt8 → Except LexFault Cursor
  | [] => .ok c
  | byte :: bytes =>
    if c.rest.head? = some byte then c.advance.requireBytes bytes
    else .error (.error (.unexpectedByte c.place c.rest.head? (some byte)))

/-- The digits of a number from `offset` on, after digits with the given value. `start` is the
place of the first digit. -/
def readDigits (start value offset : Nat) : List UInt8 → Except LexFault (Nat × Cursor)
  | [] => .ok (value, ⟨offset, []⟩)
  | byte :: rest =>
    if isBlank byte then .ok (value, ⟨offset, byte :: rest⟩)
    else if isDigit byte then
      let value := 10 * value + (byte.toNat - 48)
      if 0x100000000 ≤ value then .error (.error (.numberTooLarge start value))
      else readDigits start value (offset + 1) rest
    else .error (.error (.unexpectedByte offset (some byte) none))

/-- Reads a number. It is a breach to ask for one where no digit stands. -/
def readNumber (c : Cursor) : Except LexFault (Nat × Cursor) :=
  if c.rest.head?.any isDigit then readDigits c.offset 0 c.offset c.rest
  else .error (.breach .precondition)

def formatName : List UInt8 := [99, 110, 102]

def readProblem (c : Cursor) (start : Nat) : Except LexFault (Token × Cursor) := do
  let c ← (← (← c.requireBlanks).requireBytes formatName).requireBlanks
  let (variableCount, c) ← c.readNumber
  let (clauseCount, c) ← (← c.requireBlanks).readNumber
  return (.problem start variableCount clauseCount, c)

/-- Reads a literal whose number starts here and whose first byte is at `start`. -/
def readLiteral (c : Cursor) (start : Nat) (negative : Bool) :
    Except LexFault (Token × Cursor) := do
  let (value, c) ← c.readNumber
  if value = 0 ∨ 0x80000000 ≤ value then throw (.error (.literalOutOfRange start value))
  return (.literal (Int32.ofInt (if negative then -value else value)), c)

def readComment (c : Cursor) : Except LexFault (Token × Cursor) :=
  if c.rest.head?.all isBlank then .ok (.comment, c.skip (· != 10))
  else .error (.error (.expectedBlank c.place c.rest.head?))

/-- The token that starts with the given byte, where the cursor stands behind that byte. -/
def readToken (c : Cursor) (byte : UInt8) : Except LexFault (Token × Cursor) :=
  let start := c.offset - 1
  if byte = 99 then c.readComment
  else if byte = 112 then c.readProblem start
  else if byte = 48 then .ok (.clauseEnd, c)
  else if byte = 45 then c.readLiteral start true
  else if isDigit byte then Cursor.readLiteral ⟨start, byte :: c.rest⟩ start false
  else .error (.error (.invalidTokenStart start byte))

/-- The next token, or nothing at the end of the text. -/
def next (c : Cursor) : Except LexFault (Option (Token × Cursor)) :=
  let c := c.skip isBlank
  match c.rest with
  | [] => .ok none
  | byte :: rest => some <$> Cursor.readToken ⟨c.offset + 1, rest⟩ byte

theorem length_skip_le (c : Cursor) (kind : UInt8 → Bool) :
    (c.skip kind).rest.length ≤ c.rest.length :=
  (List.dropWhile_sublist kind).length_le

theorem length_requireBlanks_le {c c' : Cursor} (h : c.requireBlanks = .ok c') :
    c'.rest.length ≤ c.rest.length := by
  unfold requireBlanks at h
  split at h <;> cases h
  exact length_skip_le c isBlank

theorem length_requireBytes_le {c c' : Cursor} {bytes : List UInt8}
    (h : c.requireBytes bytes = .ok c') : c'.rest.length ≤ c.rest.length := by
  induction bytes generalizing c with
  | nil => cases h; exact Nat.le_refl _
  | cons byte bytes ih =>
    rw [requireBytes] at h
    split at h
    · have := ih h
      simp only [advance, List.length_tail] at this
      omega
    · cases h

theorem length_readDigits_le {start value offset n : Nat} {rest : List UInt8} {c' : Cursor}
    (h : readDigits start value offset rest = .ok (n, c')) : c'.rest.length ≤ rest.length := by
  induction rest generalizing value offset with
  | nil => cases h; exact Nat.le_refl _
  | cons byte rest ih =>
    rw [readDigits] at h
    split at h
    · cases h; exact Nat.le_refl _
    split at h
    · dsimp only at h
      split at h
      · cases h
      · have := ih h
        simp only [List.length_cons]
        omega
    · cases h

theorem isBlank_of_isDigit {byte : UInt8} (h : isDigit byte = true) : isBlank byte = false := by
  unfold isDigit at h
  unfold isBlank
  simp only [Bool.and_eq_true, decide_eq_true_eq, UInt8.le_iff_toNat_le] at h
  have hne : ∀ b : UInt8, b.toNat < 48 → byte ≠ b := by
    rintro b hb rfl
    have := h.1
    simp only [UInt8.toNat_ofNat] at this
    omega
  simp [hne 32 (by decide), hne 9 (by decide), hne 10 (by decide), hne 12 (by decide),
    hne 13 (by decide)]

/-- A number has a digit at least. -/
theorem length_readNumber_lt {c c' : Cursor} {n : Nat} (h : c.readNumber = .ok (n, c')) :
    c'.rest.length < c.rest.length := by
  obtain ⟨offset, rest⟩ := c
  unfold readNumber at h
  split at h
  · rename_i hd
    cases rest with
    | nil => simp at hd
    | cons byte rest =>
      simp only [List.head?_cons, Option.any_some] at hd
      simp only [readDigits, isBlank_of_isDigit hd, hd, if_true] at h
      split at h
      · rename_i hf; cases hf
      split at h
      · cases h
      · have := length_readDigits_le h
        simp only [List.length_cons]
        omega
  · cases h

theorem length_readProblem_le {c c' : Cursor} {start : Nat} {t : Token}
    (h : c.readProblem start = .ok (t, c')) : c'.rest.length ≤ c.rest.length := by
  unfold readProblem at h
  obtain ⟨c₁, blanks₁, h⟩ := bind_eq_ok_iff.mp h
  obtain ⟨c₂, name, h⟩ := bind_eq_ok_iff.mp h
  obtain ⟨c₃, blanks₂, h⟩ := bind_eq_ok_iff.mp h
  obtain ⟨⟨variableCount, c₄⟩, number₁, h⟩ := bind_eq_ok_iff.mp h
  obtain ⟨c₅, blanks₃, h⟩ := bind_eq_ok_iff.mp h
  obtain ⟨⟨clauseCount, c₆⟩, number₂, h⟩ := bind_eq_ok_iff.mp h
  cases h
  have := length_requireBlanks_le blanks₁
  have := length_requireBytes_le name
  have := length_requireBlanks_le blanks₂
  have := length_readNumber_lt number₁
  have := length_requireBlanks_le blanks₃
  have := length_readNumber_lt number₂
  omega

theorem length_readLiteral_lt {c c' : Cursor} {start : Nat} {negative : Bool} {t : Token}
    (h : c.readLiteral start negative = .ok (t, c')) : c'.rest.length < c.rest.length := by
  unfold readLiteral at h
  obtain ⟨⟨value, c₁⟩, number, h⟩ := bind_eq_ok_iff.mp h
  simp only at h
  split at h
  · cases h
  · cases h
    exact length_readNumber_lt number

theorem length_readToken_le {c c' : Cursor} {byte : UInt8} {t : Token}
    (h : c.readToken byte = .ok (t, c')) : c'.rest.length ≤ c.rest.length := by
  unfold readToken at h
  simp only at h
  split at h
  · unfold readComment at h
    split at h <;> cases h
    exact length_skip_le _ _
  split at h
  · exact length_readProblem_le h
  split at h
  · cases h; exact Nat.le_refl _
  split at h
  · exact Nat.le_of_lt (length_readLiteral_lt h)
  split at h
  · have := length_readLiteral_lt h
    simp only [List.length_cons] at this
    omega
  · cases h

/-- A token takes a byte at least. -/
theorem length_next_lt {c c' : Cursor} {t : Token} (h : c.next = .ok (some (t, c'))) :
    c'.rest.length < c.rest.length := by
  have hs := length_skip_le c isBlank
  unfold next at h
  simp only at h
  split at h
  · cases h
  · rename_i byte rest hr
    rw [hr, List.length_cons] at hs
    cases token : readToken ⟨(c.skip isBlank).offset + 1, rest⟩ byte with
    | error => rw [token] at h; cases h
    | ok r =>
      rw [token] at h
      cases h
      have : c'.rest.length ≤ rest.length := length_readToken_le token
      omega

end Cursor

/-- Adds the tokens from a place on to those read before it. The second component tells why the
cutting stopped, if not at the end of the text. There may be one problem line; `declared` tells
whether it has been read. -/
def tokensFrom (c : Cursor) (declared : Bool) (before : Array Token) :
    Array Token × Option LexFault :=
  match _h : c.next with
  | .error fault => (before, some fault)
  | .ok none => (before, none)
  | .ok (some (.problem start variableCount clauseCount, c')) =>
    if declared then (before, some (.error (.duplicateProblem start variableCount clauseCount)))
    else tokensFrom c' true (before.push (.problem start variableCount clauseCount))
  | .ok (some (token, c')) => tokensFrom c' declared (before.push token)
termination_by c.rest.length
decreasing_by all_goals exact Cursor.length_next_lt _h

/-- The text that the bytes spell. -/
def Text.ofBytes (bytes : List UInt8) : Text LexFault :=
  let (tokens, fault) := tokensFrom ⟨0, bytes⟩ false #[]
  ⟨tokens.toList, fault⟩

end ClauseSharing.Dimacs
