import MicroPython.Unicode

/-!
# The lexer

`py/lexer.c` reads a source text through a window of three characters and cuts it into
tokens. Characters are numbers, and the end of the text is the greatest of them.
-/

namespace MicroPython.Lexer

open Nat Utf8 Unicode

/-- `mp_token_kind_t`. -/
inductive TokenKind
  | end
  | invalid
  | dedentMismatch
  | lonelyStringOpen
  | newline
  | indent
  | dedent
  | name
  | integer
  | floatOrImag
  | string
  | bytes
  | ellipsis
  | kwFalse
  | kwNone
  | kwTrue
  | kwDebug
  | kwAnd
  | kwAs
  | kwAssert
  | kwAsync
  | kwAwait
  | kwBreak
  | kwClass
  | kwContinue
  | kwDef
  | kwDel
  | kwElif
  | kwElse
  | kwExcept
  | kwFinally
  | kwFor
  | kwFrom
  | kwGlobal
  | kwIf
  | kwImport
  | kwIn
  | kwIs
  | kwLambda
  | kwNonlocal
  | kwNot
  | kwOr
  | kwPass
  | kwRaise
  | kwReturn
  | kwTry
  | kwWhile
  | kwWith
  | kwYield
  | opPlus
  | opMinus
  | opStar
  | opDblStar
  | opSlash
  | opDblSlash
  | opPercent
  | opLess
  | opDblLess
  | opMore
  | opDblMore
  | opAmpersand
  | opPipe
  | opCaret
  | opTilde
  | opLessEqual
  | opMoreEqual
  | opDblEqual
  | opNotEqual
  | delParenOpen
  | delParenClose
  | delBracketOpen
  | delBracketClose
  | delBraceOpen
  | delBraceClose
  | delComma
  | delColon
  | delPeriod
  | delSemicolon
  | delAt
  | delEqual
  | delPlusEqual
  | delMinusEqual
  | delStarEqual
  | delSlashEqual
  | delDblSlashEqual
  | delPercentEqual
  | delAmpersandEqual
  | delPipeEqual
  | delCaretEqual
  | delDblMoreEqual
  | delDblLessEqual
  | delDblStarEqual
  | delMinusMore
deriving DecidableEq

/-- `MP_LEXER_EOF`. -/
def lexerEof : ℕ := 0xFFFFFFFF

/-- The state of the lexer with what its reader has not read yet. -/
structure MpLexer where
  reader : List UInt8
  /-- The first character of the window. -/
  chr0 : ℕ
  /-- The second character of the window. -/
  chr1 : ℕ
  /-- The third character of the window. -/
  chr2 : ℕ
  line : ℕ
  /-- The current column. It begins at minus two for the three characters before the
  text. -/
  column : ℤ
  /-- How many INDENT tokens are to come, or DEDENT tokens when it is negative. -/
  emitDent : ℤ
  nestedBracketLevel : ℤ
  /-- The levels of indentation, the last one first, in 16 bits each. -/
  indentLevel : List ℕ
  tokLine : ℕ
  tokColumn : ℤ
  tokKind : TokenKind
  /-- The bytes of the token. -/
  vstr : List UInt8

variable (lex : MpLexer)

/-! ## Looking at characters -/

/-- `is_end`. -/
def isEnd : Bool := decide (lex.chr0=lexerEof)

/-- `is_physical_newline`. -/
def isPhysicalNewline : Bool := decide (lex.chr0=10)

/-- `is_char`. -/
def isChar (c : ℕ) : Bool := decide (lex.chr0=c)

/-- `is_char_or`. -/
def isCharOr (c1 c2 : ℕ) : Bool := decide (lex.chr0=c1∨lex.chr0=c2)

/-- `is_char_or3`. -/
def isCharOr3 (c1 c2 c3 : ℕ) : Bool := decide (lex.chr0=c1∨lex.chr0=c2∨lex.chr0=c3)

/-- `is_char_following`. -/
def isCharFollowing (c : ℕ) : Bool := decide (lex.chr1=c)

/-- `is_char_following_or`. -/
def isCharFollowingOr (c1 c2 : ℕ) : Bool := decide (lex.chr1=c1∨lex.chr1=c2)

/-- `is_char_following_following_or`. -/
def isCharFollowingFollowingOr (c1 c2 : ℕ) : Bool := decide (lex.chr2=c1∨lex.chr2=c2)

/-- `is_char_and`. -/
def isCharAnd (c1 c2 : ℕ) : Bool := decide (lex.chr0=c1∧lex.chr1=c2)

/-- `is_whitespace`. -/
def isWhitespace : Bool := unicharIsspace lex.chr0

/-- `is_letter`. -/
def isLetter : Bool := unicharIsalpha lex.chr0

/-- `is_digit`. -/
def isDigit : Bool := unicharIsdigit lex.chr0

/-- `is_following_digit`. -/
def isFollowingDigit : Bool := unicharIsdigit lex.chr1

/-- `is_following_base_char`, one of b, o and x. -/
def isFollowingBaseChar : Bool :=
  decide (lex.chr1|||0x20=98∨lex.chr1|||0x20=111∨lex.chr1|||0x20=120)

/-- `is_following_odigit`. -/
def isFollowingOdigit : Bool := decide (48≤lex.chr1∧lex.chr1≤55)

/-- `is_string_or_bytes`: quotes with r, u, b, rb, br or nothing in front. -/
def isStringOrBytes : Bool :=
  isCharOr lex 39 34|| (isCharOr3 lex 114 117 98&&isCharFollowingOr lex 39 34)||
    ((isCharAnd lex 114 98||isCharAnd lex 98 114)&&isCharFollowingFollowingOr lex 39 34)

/-- `is_head_of_identifier`. -/
def isHeadOfIdentifier : Bool := isLetter lex||decide (lex.chr0=95)||decide (0x80≤lex.chr0)

/-- `is_tail_of_identifier`. -/
def isTailOfIdentifier : Bool := isHeadOfIdentifier lex||isDigit lex

/-! ## Going on -/

/-- `TAB_SIZE`. -/
def tabSize : ℤ := 8

/-- The position after the first character of the window. -/
def movePosition : MpLexer :=
  if lex.chr0=10 then
    {lex with
      line := lex.line+1
      column := 1}
  else if lex.chr0=9 then {lex with column := (lex.column-1+tabSize)/tabSize*tabSize+1}
  else {lex with column := lex.column+1}

/-- A byte is read into the last place of the window. -/
def readChar : MpLexer :=
  match lex.reader with
  | [] => {lex with chr2 := lexerEof}
  | c::reader =>
    {lex with
      reader := reader
      chr2 := c.toNat}

/-- The window moves by one character. -/
def shift : MpLexer :=
  readChar {lex with
    chr0 := lex.chr1
    chr1 := lex.chr2}

/-- CR and CR LF are new lines. -/
def convertCr : MpLexer :=
  if lex.chr1=13 then
    if lex.chr2=10 then readChar {lex with chr1 := 10} else {lex with chr1 := 10}
  else lex

/-- A new line is put at the end of the text when there is none. -/
def insertNewline : MpLexer :=
  if lex.chr2=lexerEof∧lex.chr1≠lexerEof∧lex.chr1≠10 then {lex with chr2 := 10} else lex

/-- `next_char`. -/
def nextChar : MpLexer := insertNewline (convertCr (shift (movePosition lex)))

/-- What a character in the last place of the window still stands for: itself, and the new
line that may have to be put after it. -/
def lastWeight (c : ℕ) : ℕ := if c=lexerEof then 0 else if c=10 then 1 else 2

/-- A bound for the characters that are left. -/
def left : ℕ :=
  (if lex.chr0=lexerEof then 0 else 1)+(if lex.chr1=lexerEof then 0 else 1)+
    lastWeight lex.chr2+2*lex.reader.length

variable {lex}

section

variable (lex : MpLexer)

/-- A byte that is read is not counted any more. -/
theorem left_readChar : left (readChar lex)≤(if lex.chr0=lexerEof then 0 else 1)+
      (if lex.chr1=lexerEof then 0 else 1)+2*lex.reader.length := by
  rw [readChar]
  cases hreader : lex.reader with
  | nil =>
    rw [left]
    simp only [lastWeight,if_true,List.length_nil]
    omega
  | cons c reader =>
    have hweight : lastWeight c.toNat≤2 := by
      rw [lastWeight]
      split_ifs <;> omega
    simp only [left,List.length_cons]
    omega

theorem left_eq :
    left lex=(if lex.chr0=lexerEof then 0 else 1)+(if lex.chr1=lexerEof then 0 else 1)+
      lastWeight lex.chr2+2*lex.reader.length := rfl

/-- The position does not count. -/
theorem movePosition_fields :
    (movePosition lex).chr0=lex.chr0∧(movePosition lex).chr1=lex.chr1∧
      (movePosition lex).chr2=lex.chr2∧(movePosition lex).reader=lex.reader := by
  rw [movePosition]
  split_ifs
  · exact ⟨rfl,rfl,rfl,rfl⟩
  · exact ⟨rfl,rfl,rfl,rfl⟩
  · exact ⟨rfl,rfl,rfl,rfl⟩

/-- Reading does not change the first two places. -/
theorem readChar_fields :
    (readChar lex).chr0=lex.chr0∧(readChar lex).chr1=lex.chr1 := by
  rw [readChar]
  split
  · exact ⟨rfl,rfl⟩
  · exact ⟨rfl,rfl⟩

theorem convertCr_chr1 :
    (convertCr lex).chr1=if lex.chr1=13 then 10 else lex.chr1 := by
  rw [convertCr]
  split_ifs
  · exact (readChar_fields _).2
  · rfl
  · rfl

/-- Converting CR leaves no more to read. -/
theorem left_convertCr : left (convertCr lex)≤left lex := by
  rw [convertCr]
  split_ifs with hcr hlf
  · have hread := left_readChar {lex with chr1 := 10}
    rw [left_eq lex,hcr]
    dsimp only at hread
    have hten : ¬(10 : ℕ)=lexerEof := by decide
    have hthirteen : ¬(13 : ℕ)=lexerEof := by decide
    rw [if_neg hten] at hread
    rw [if_neg hthirteen]
    omega
  · rw [left_eq,left_eq,hcr]
    exact le_refl _
  · exact le_refl _

/-- A new line is put at the end at most. -/
theorem left_insertNewline :
    left (insertNewline lex)≤left lex+if lex.chr1=lexerEof∨lex.chr1=10 then 0 else 1 := by
  rw [insertNewline]
  split_ifs with hinsert hend
  · exact absurd hend (not_or.mpr hinsert.2)
  · rw [left_eq,left_eq,hinsert.1]
    have hten : lastWeight 10=1 := by decide
    dsimp only
    omega
  · exact le_refl _
  · exact le_succ _

/-- The window never moves to where there is more to read. -/
theorem left_nextChar :
    left (nextChar lex)+(if lex.chr0=lexerEof then 0 else 1)≤left lex := by
  obtain ⟨h0,h1,h2,hreader⟩ := movePosition_fields lex
  have hread := left_readChar {movePosition lex with
    chr0 := (movePosition lex).chr1
    chr1 := (movePosition lex).chr2}
  have hchr1 := (readChar_fields {movePosition lex with
    chr0 := (movePosition lex).chr1
    chr1 := (movePosition lex).chr2}).2
  have hconvert := left_convertCr (shift (movePosition lex))
  have hinsert := left_insertNewline (convertCr (shift (movePosition lex)))
  rw [convertCr_chr1] at hinsert
  rw [nextChar,left_eq lex]
  dsimp only at hread hchr1
  rw [←shift] at hread hchr1
  rw [h1,h2,hreader] at hread
  rw [hchr1,h2] at hinsert
  have hweight : (if lex.chr2=lexerEof then 0 else 1)+
      (if (if lex.chr2=13 then 10 else lex.chr2)=lexerEof∨
        (if lex.chr2=13 then 10 else lex.chr2)=10 then 0 else 1)≤lastWeight lex.chr2 := by
    rw [lastWeight]
    by_cases heof : lex.chr2=lexerEof
    · rw [heof]
      decide
    · by_cases hten : lex.chr2=10
      · rw [hten]
        decide
      · rw [if_neg heof,if_neg heof,if_neg hten]
        split_ifs <;> omega
  omega

end

/-- Before the end the window moves on. -/
theorem left_nextChar_lt (h : ¬isEnd lex=true) : left (nextChar lex)<left lex := by
  have hle := left_nextChar lex
  have hend : ¬lex.chr0=lexerEof := fun heof => h (decide_eq_true heof)
  rw [if_neg hend] at hle
  exact hle

/-- The window does not move back. -/
theorem left_nextChar_le (lex : MpLexer) : left (nextChar lex)≤left lex :=
  le_trans (le_add_right _ _) (left_nextChar lex)

variable {lex' : MpLexer} {R : MpLexer→MpLexer→Prop} {isRaw : Bool}

/-- What is not in the window does not matter for how the window moves. -/
theorem left_nextChar_same (hchr0 : lex'.chr0=lex.chr0)
    (hleft : left lex'=left lex) (h : ¬isEnd lex=true) : left (nextChar lex')<left lex := by
  rw [←hleft]
  refine left_nextChar_lt ?_
  rw [isEnd,hchr0]
  exact h

/-- A relation that holds between a lexer and what is left of it after characters. -/
structure Steps (R : MpLexer→MpLexer→Prop) : Prop where
  /-- No character is read. -/
  refl : ∀ lex,R lex lex
  /-- One reading after another. -/
  trans : ∀ {lex lex' lex''},R lex lex' → R lex' lex'' → R lex lex''
  next : ∀ lex,¬isEnd lex=true → R lex (nextChar lex)
  /-- The new line behind a backslash is read. -/
  continued : ∀ lex,isCharAnd lex 92 10=true → R (nextChar lex) (nextChar (nextChar lex))

/-- What is left to read does not become more. -/
theorem steps_left : Steps fun lex lex' => left lex'≤left lex where
  refl _ := le_refl _
  trans h h' := le_trans h' h
  next lex _ := left_nextChar_le lex
  continued _ _ := left_nextChar_le _

/-! ## White space -/

/-- The loop of `skip_whitespace` over a comment. -/
def skipComment (lex : MpLexer) : MpLexer :=
  if _ : isEnd lex=true then lex
  else if isPhysicalNewline lex then lex
  else skipComment (nextChar lex)
termination_by left lex
decreasing_by exact left_nextChar_lt ‹_›

theorem Steps.skipComment (h : Steps R) (lex : MpLexer) : R lex (skipComment lex) := by
  fun_induction Lexer.skipComment lex with
  | case1 lex hend => exact h.refl lex
  | case2 lex hend hnewline => exact h.refl lex
  | case3 lex hend hnewline ih => exact h.trans (h.next lex hend) ih

/-- The loop of `skip_whitespace`. -/
def skipWhitespaceLoop (stopAtNewline hadPhysicalNewline : Bool) (lex : MpLexer) : Bool×MpLexer :=
  if _ : isEnd lex=true then (hadPhysicalNewline,lex)
  else if isPhysicalNewline lex then
    if stopAtNewline=true∧lex.nestedBracketLevel=0 then (hadPhysicalNewline,lex)
    else skipWhitespaceLoop stopAtNewline true (nextChar lex)
  else if isWhitespace lex then
    skipWhitespaceLoop stopAtNewline hadPhysicalNewline (nextChar lex)
  else if isChar lex 35 then
    skipWhitespaceLoop stopAtNewline hadPhysicalNewline (skipComment (nextChar lex))
  else if isCharAnd lex 92 10 then
    skipWhitespaceLoop stopAtNewline hadPhysicalNewline (nextChar (nextChar lex))
  else (hadPhysicalNewline,lex)
termination_by left lex
decreasing_by
  · exact left_nextChar_lt ‹_›
  · exact left_nextChar_lt ‹_›
  · exact Nat.lt_of_le_of_lt (steps_left.skipComment _) (left_nextChar_lt ‹_›)
  · exact Nat.lt_of_le_of_lt (left_nextChar_le _) (left_nextChar_lt ‹_›)

/-- `skip_whitespace`. -/
def skipWhitespace (lex : MpLexer) (stopAtNewline : Bool) : Bool×MpLexer :=
  skipWhitespaceLoop stopAtNewline false lex

/-- White space is read in steps. -/
theorem Steps.skipWhitespaceLoop (h : Steps R)
    (stopAtNewline hadPhysicalNewline : Bool) (lex : MpLexer) :
    R lex (skipWhitespaceLoop stopAtNewline hadPhysicalNewline lex).2 := by
  fun_induction Lexer.skipWhitespaceLoop stopAtNewline hadPhysicalNewline lex with
  | case1 had lex hend => exact h.refl lex
  | case2 had lex hend hnewline hstop => exact h.refl lex
  | case3 had lex hend hnewline hstop ih => exact h.trans (h.next lex hend) ih
  | case4 had lex hend hnewline hspace ih => exact h.trans (h.next lex hend) ih
  | case5 had lex hend hnewline hspace hcomment ih =>
    exact h.trans (h.trans (h.next lex hend) (h.skipComment _)) ih
  | case6 had lex hend hnewline hspace hcomment hcontinued ih =>
    exact h.trans (h.trans (h.next lex hend) (h.continued lex hcontinued)) ih
  | case7 had lex hend hnewline hspace hcomment hcontinued => exact h.refl lex

/-! ## Token text -/

/-- `vstr_add_byte`. -/
def vstrAddByte (lex : MpLexer) (c : ℕ) : MpLexer := {lex with vstr := lex.vstr++[UInt8.ofNat c]}

/-- The bytes that `vstr_add_char` adds. -/
def charBytes (c : ℕ) : List UInt8 :=
  if c<0x80 then [UInt8.ofNat c]
  else if c<0x800 then [UInt8.ofNat (c>>>6|||0xC0),UInt8.ofNat (c&&&0x3F|||0x80)]
  else if c<0x10000 then
    [UInt8.ofNat (c>>>12|||0xE0),UInt8.ofNat (c>>>6&&&0x3F|||0x80),UInt8.ofNat (c&&&0x3F|||0x80)]
  else
    [UInt8.ofNat (c>>>18|||0xF0),UInt8.ofNat (c>>>12&&&0x3F|||0x80),
      UInt8.ofNat (c>>>6&&&0x3F|||0x80),UInt8.ofNat (c&&&0x3F|||0x80)]

/-- `vstr_add_char`. -/
def vstrAddChar (lex : MpLexer) (c : ℕ) : MpLexer := {lex with vstr := lex.vstr++charBytes c}

/-- `vstr_cut_tail_bytes`. -/
def vstrCutTailBytes (lex : MpLexer) (bytesToCut : ℕ) : MpLexer :=
  {lex with vstr := lex.vstr.take (lex.vstr.length-bytesToCut)}

/-! ## Literals -/

/-- `get_hex`: the number, unless a character is not a hexadecimal digit. -/
def getHex : ℕ→ℕ→MpLexer→MpLexer×Option ℕ
  | 0,num,lex => (lex,some num)
  | numDigits+1,num,lex =>
    if unicharIsxdigit (nextChar lex).chr0 then
      getHex numDigits (num<<<4+unicharXdigitValue (nextChar lex).chr0) (nextChar lex)
    else (nextChar lex,none)

/-- The loop over the octal digits after the first one. -/
def getOctal : ℕ→ℕ→MpLexer→MpLexer×ℕ
  | 0,num,lex => (lex,num)
  | digits+1,num,lex =>
    if isFollowingOdigit lex then
      getOctal digits (num*8+((nextChar lex).chr0-48)) (nextChar lex)
    else (lex,num)

/-- The hexadecimal escapes, which give zero and an invalid token when they are broken. -/
def hexEscape (numDigits : ℕ) (lex : MpLexer) : MpLexer×ℕ :=
  match getHex numDigits 0 lex with
  | (lex,some num) => (lex,num)
  | (lex,none) => ({lex with tokKind := .invalid},0)

/-- The character after a backslash is looked at and the character that it stands for is
given. Names of characters raise NotImplementedError. -/
def escapedChar (lex : MpLexer) : Option (MpLexer×ℕ) :=
  match lex.chr0 with
  | 10 => some (lex,lexerEof)
  | 92 => some (lex,92)
  | 39 => some (lex,39)
  | 34 => some (lex,34)
  | 97 => some (lex,0x07)
  | 98 => some (lex,0x08)
  | 116 => some (lex,0x09)
  | 110 => some (lex,0x0a)
  | 118 => some (lex,0x0b)
  | 102 => some (lex,0x0c)
  | 114 => some (lex,0x0d)
  | 117 =>
    if lex.tokKind=.bytes then some (vstrAddChar lex 92,117) else some (hexEscape 4 lex)
  | 85 => if lex.tokKind=.bytes then some (vstrAddChar lex 92,85) else some (hexEscape 8 lex)
  | 120 => some (hexEscape 2 lex)
  | 78 => none
  | c =>
    if 48≤c∧c≤55 then some (getOctal 2 (c-48) lex)
    else some (vstrAddChar lex 92,c)

/-- The character of an escape is added to the text, unless it is none. -/
def addEscaped (lex : MpLexer) (c : ℕ) : MpLexer :=
  if c=lexerEof then lex
  else if c<0x110000∧lex.tokKind=.string then vstrAddChar lex c
  else if c<0x100∧lex.tokKind=.bytes then vstrAddByte lex c
  else {lex with tokKind := .invalid}

/-- What a backslash stands for is added to the text. -/
def backslash (isRaw : Bool) (lex : MpLexer) : Option MpLexer :=
  if isRaw then some (addEscaped (vstrAddChar (nextChar lex) 92) (nextChar lex).chr0)
  else (escapedChar (nextChar lex)).map fun r => addEscaped r.1 r.2

/-- Hexadecimal digits are not more than what is left. -/
theorem left_getHex (numDigits : ℕ) : ∀ num lex,left (getHex numDigits num lex).1≤left lex := by
  induction numDigits with
  | zero => exact fun num lex => le_refl _
  | succ numDigits ih =>
    intro num lex
    rw [getHex]
    split_ifs
    · exact le_trans (ih _ _) (left_nextChar_le lex)
    · exact left_nextChar_le lex

/-- Octal digits are not more than what is left. -/
theorem left_getOctal (digits : ℕ) : ∀ num lex,left (getOctal digits num lex).1≤left lex := by
  induction digits with
  | zero => exact fun num lex => le_refl _
  | succ digits ih =>
    intro num lex
    rw [getOctal]
    split_ifs
    · exact le_trans (ih _ _) (left_nextChar_le lex)
    · exact le_refl _

/-- A hexadecimal escape is not longer than what is left. -/
theorem left_hexEscape (numDigits : ℕ) (lex : MpLexer) :
    left (hexEscape numDigits lex).1≤left lex := by
  have hhex := left_getHex numDigits 0 lex
  rw [hexEscape]
  split
  case h_1 lex' num h =>
    rw [h] at hhex
    exact hhex
  case h_2 lex' h =>
    rw [h] at hhex
    exact hhex

/-- An escape is not longer than what is left. -/
theorem left_escapedChar {r : MpLexer×ℕ} (h : escapedChar lex=some r) : left r.1≤left lex := by
  rw [escapedChar] at h
  split at h
  all_goals try split_ifs at h
  all_goals cases h
  all_goals first
    | with_reducible exact left_hexEscape _ _
    | with_reducible exact left_getOctal _ _ _
    | exact le_refl _

/-- Adding the character of an escape reads nothing. -/
theorem left_addEscaped (lex : MpLexer) (c : ℕ) : left (addEscaped lex c)=left lex := by
  rw [addEscaped]
  split_ifs
  · rfl
  · rfl
  · rfl
  · rfl

/-- What a backslash stands for is not longer than what is left after it. -/
theorem left_backslash (h : backslash isRaw lex=some lex') : left lex'≤left (nextChar lex) := by
  rw [backslash] at h
  split_ifs at h
  · cases h
    rw [left_addEscaped]
    exact le_refl _
  · obtain ⟨r,hr,heq⟩ := Option.map_eq_some_iff.mp h
    rw [←heq,left_addEscaped]
    exact left_escapedChar hr

/-- The loop of `parse_string_literal`, with the quotes at its end. -/
def literalLoop (quoteChar numQuotes : ℕ) (isRaw : Bool) (nClosing : ℕ) (lex : MpLexer) :
    Option (ℕ×MpLexer) :=
  if _ : isEnd lex=true then some (nClosing,lex)
  else if ¬1<numQuotes∧isPhysicalNewline lex=true∨¬nClosing<numQuotes then some (nClosing,lex)
  else if isChar lex quoteChar then
    literalLoop quoteChar numQuotes isRaw (nClosing+1) (nextChar (vstrAddChar lex lex.chr0))
  else if isChar lex 92 then
    match _ : backslash isRaw lex with
    | some lex' => literalLoop quoteChar numQuotes isRaw 0 (nextChar lex')
    | none => none
  else literalLoop quoteChar numQuotes isRaw 0 (nextChar (vstrAddByte lex lex.chr0))
termination_by left lex
decreasing_by
  · exact left_nextChar_same rfl rfl ‹_›
  · exact Nat.lt_of_le_of_lt (left_nextChar_le _)
      (Nat.lt_of_le_of_lt (left_backslash ‹_›) (left_nextChar_lt ‹_›))
  · exact left_nextChar_same rfl rfl ‹_›

/-- The quotes at the end are read in steps. -/
theorem Steps.literalLoop (h : Steps R) (hvstr : ∀ lex vstr,R lex {lex with vstr := vstr})
    (hback : ∀ {lex lex'},isChar lex 92=true → backslash isRaw lex=some lex' →
      R lex (nextChar lex')) {quoteChar numQuotes : ℕ} (nClosing : ℕ) (lex : MpLexer) :
    ∀ r,literalLoop quoteChar numQuotes isRaw nClosing lex=some r → R lex r.2 := by
  fun_induction Lexer.literalLoop quoteChar numQuotes isRaw nClosing lex with
  | case1 nClosing lex hend =>
    intro r hr
    cases hr
    exact h.refl lex
  | case2 nClosing lex hend hstop =>
    intro r hr
    cases hr
    exact h.refl lex
  | case3 nClosing lex hend hstop hquote ih =>
    intro r hr
    exact h.trans (h.trans (hvstr lex _) (h.next (vstrAddChar lex lex.chr0) hend)) (ih r hr)
  | case4 nClosing lex hend hstop hquote hslash lex' hbackslash ih =>
    intro r hr
    exact h.trans (hback hslash hbackslash) (ih r hr)
  | case5 nClosing lex hend hstop hquote hslash hbackslash =>
    intro r hr
    cases hr
  | case6 nClosing lex hend hstop hquote hslash ih =>
    intro r hr
    exact h.trans (h.trans (hvstr lex _) (h.next (vstrAddByte lex lex.chr0) hend)) (ih r hr)

theorem left_literalLoop {quoteChar numQuotes : ℕ} (nClosing : ℕ) (lex : MpLexer) :
    ∀ r,literalLoop quoteChar numQuotes isRaw nClosing lex=some r → left r.2≤left lex :=
  steps_left.literalLoop (fun _ _ => le_refl _) (fun _ hbackslash =>
    le_trans (left_nextChar_le _) (le_trans (left_backslash hbackslash)
      (left_nextChar_le _))) nClosing lex

/-- The quote of a literal. -/
def quoteOf (lex : MpLexer) : ℕ := if isChar lex 34 then 34 else 39

/-- The end of `parse_string_literal`. -/
def closeLiteral (numQuotes nClosing : ℕ) (lex : MpLexer) : MpLexer :=
  vstrCutTailBytes
    (if nClosing<numQuotes then {lex with tokKind := .lonelyStringOpen} else lex) nClosing

/-- `parse_string_literal`, unless it raises NotImplementedError. -/
def parseStringLiteral (lex : MpLexer) (isRaw : Bool) : Option MpLexer :=
  if isCharAnd (nextChar lex) (quoteOf lex) (quoteOf lex) then
    (literalLoop (quoteOf lex) 3 isRaw 0 (nextChar (nextChar (nextChar lex)))).map
      fun r => closeLiteral 3 r.1 r.2
  else
    (literalLoop (quoteOf lex) 1 isRaw 0 (nextChar lex)).map fun r => closeLiteral 1 r.1 r.2

/-- A literal goes beyond its first character. -/
theorem left_parseStringLiteral
    (h : parseStringLiteral lex isRaw=some lex') : left lex'≤left (nextChar lex) := by
  have hclose : ∀ numQuotes nClosing (lex : MpLexer),
      left (closeLiteral numQuotes nClosing lex)=left lex := by
    intro numQuotes nClosing lex
    rw [closeLiteral]
    split_ifs
    · rfl
    · rfl
  rw [parseStringLiteral] at h
  split_ifs at h
  · obtain ⟨r,hr,heq⟩ := Option.map_eq_some_iff.mp h
    rw [←heq,hclose]
    exact le_trans (left_literalLoop _ _ r hr) (le_trans (left_nextChar_le _) (left_nextChar_le _))
  · obtain ⟨r,hr,heq⟩ := Option.map_eq_some_iff.mp h
    rw [←heq,hclose]
    exact left_literalLoop _ _ r hr

/-- The type codes of a literal: whether it is raw, its kind and their number. -/
def typeCodes (lex : MpLexer) : Bool×TokenKind×ℕ :=
  if isChar lex 117 then (false,.string,1)
  else if isChar lex 98 then
    if isCharFollowing lex 114 then (true,.bytes,2) else (false,.bytes,1)
  else if isChar lex 114 then
    if isCharFollowing lex 98 then (true,.bytes,2) else (true,.string,1)
  else (false,.string,0)

/-- The type codes of a literal are skipped. -/
def skipTypeCodes (nChar : ℕ) (lex : MpLexer) : MpLexer :=
  if nChar≠0 then if nChar=2 then nextChar (nextChar lex) else nextChar lex else lex

/-- One literal and the white space after it. -/
def literal (kind : TokenKind) (lex : MpLexer) : Option MpLexer :=
  (parseStringLiteral (skipTypeCodes (typeCodes lex).2.2 {lex with tokKind := kind})
    (typeCodes lex).1).map fun lex => (skipWhitespace lex true).2

/-- A literal goes beyond its first character. -/
theorem left_literal {kind : TokenKind} (hend : ¬isEnd lex=true)
    (h : literal kind lex=some lex') : left lex'<left lex := by
  obtain ⟨lex2,hparse,heq⟩ := Option.map_eq_some_iff.mp h
  have hspace := steps_left.skipWhitespaceLoop true false lex2
  have hliteral := left_parseStringLiteral hparse
  have hskip : left (nextChar (skipTypeCodes (typeCodes lex).2.2 {lex with tokKind := kind}))<
      left lex := by
    have hfirst : left (nextChar {lex with tokKind := kind})<left lex :=
      left_nextChar_same rfl rfl hend
    rw [skipTypeCodes]
    split_ifs
    · exact lt_of_le_of_lt (le_trans (left_nextChar_le _) (left_nextChar_le _)) hfirst
    · exact lt_of_le_of_lt (left_nextChar_le _) hfirst
    · exact hfirst
  rw [←heq]
  exact lt_of_le_of_lt (le_trans hspace hliteral) hskip

/-- A literal does not begin at the end. -/
theorem not_isEnd_of_isStringOrBytes (h : isStringOrBytes lex=true) : ¬isEnd lex=true := by
  intro hend
  have heof : lex.chr0=lexerEof := of_decide_eq_true hend
  rw [isStringOrBytes,isCharOr,isCharOr3,isCharAnd,isCharAnd,heof] at h
  simp [lexerEof] at h

/-- The loop over the literals in a row, where END stands for the kind of the first
one. -/
def literals (lex : MpLexer) : Option MpLexer :=
  if _ : isStringOrBytes lex=true then
    if lex.tokKind=.end∨lex.tokKind=(typeCodes lex).2.1 then
      match _ : literal (typeCodes lex).2.1 lex with
      | some lex' => literals lex'
      | none => none
    else some lex
  else some lex
termination_by left lex
decreasing_by exact left_literal (not_isEnd_of_isStringOrBytes ‹_›) ‹_›

/-! ## Names -/

/-- The loop over the tail of a name. -/
def nameTail (lex : MpLexer) : MpLexer :=
  if _ : isEnd lex=true then lex
  else if isTailOfIdentifier lex then nameTail (nextChar (vstrAddByte lex lex.chr0))
  else lex
termination_by left lex
decreasing_by exact left_nextChar_same rfl rfl ‹_›

/-- `strcmp`. -/
def strcmp : List UInt8→List UInt8→Ordering
  | [],[] => .eq
  | [],_::_ => .lt
  | _::_,[] => .gt
  | a::s,b::t => if a=b then strcmp s t else if a<b then .lt else .gt

/-- `tok_kw` with the kinds of the keywords. -/
def tokKw : List (String×TokenKind) := [("False",.kwFalse),("None",.kwNone),("True",.kwTrue),
  ("__debug__",.kwDebug),
  ("and",.kwAnd),
  ("as",.kwAs),
  ("assert",.kwAssert),
  ("async",.kwAsync),
  ("await",.kwAwait),
  ("break",.kwBreak),
  ("class",.kwClass),
  ("continue",.kwContinue),
  ("def",.kwDef),
  ("del",.kwDel),
  ("elif",.kwElif),
  ("else",.kwElse),
  ("except",.kwExcept),
  ("finally",.kwFinally),
  ("for",.kwFor),
  ("from",.kwFrom),
  ("global",.kwGlobal),
  ("if",.kwIf),
  ("import",.kwImport),
  ("in",.kwIn),
  ("is",.kwIs),
  ("lambda",.kwLambda),
  ("nonlocal",.kwNonlocal),
  ("not",.kwNot),
  ("or",.kwOr),
  ("pass",.kwPass),
  ("raise",.kwRaise),
  ("return",.kwReturn),
  ("try",.kwTry),
  ("while",.kwWhile),
  ("with",.kwWith),
  ("yield",.kwYield)]

/-- The search for a keyword, which ends at the first one that is not before the name. -/
def findKeyword (s : List UInt8) : List (String×TokenKind)→Option TokenKind
  | [] => none
  | kw::kws =>
    match strcmp s (kw.1.toList.map fun c => UInt8.ofNat c.toNat) with
    | .eq => some kw.2
    | .lt => none
    | .gt => findKeyword s kws

/-- The kind of a keyword, with `__debug__` replaced by its value. -/
def keywordKind (optimise : ℕ) (kind : TokenKind) : TokenKind :=
  if kind=.kwDebug then if optimise=0 then .kwTrue else .kwFalse else kind

/-- A name or a keyword. -/
def name (optimise : ℕ) (lex : MpLexer) : MpLexer :=
  match findKeyword (nameTail (nextChar (vstrAddByte lex lex.chr0))).vstr tokKw with
  | some kind =>
    {nameTail (nextChar (vstrAddByte lex lex.chr0)) with tokKind := keywordKind optimise kind}
  | none => {nameTail (nextChar (vstrAddByte lex lex.chr0)) with tokKind := .name}

/-! ## Numbers -/

/-- The sign after an exponent. -/
def exponentSign (lex : MpLexer) : MpLexer :=
  if isChar lex 43||isChar lex 45 then nextChar (vstrAddChar lex lex.chr0) else lex

theorem left_exponentSign (lex : MpLexer) : left (exponentSign lex)≤left lex := by
  rw [exponentSign]
  split_ifs
  · exact left_nextChar_le (vstrAddChar lex lex.chr0)
  · exact le_refl _

/-- The loop over the tail of a number. -/
def numberTail (forcedInteger : Bool) (lex : MpLexer) : MpLexer :=
  if _ : isEnd lex=true then lex
  else if !forcedInteger&&isCharOr lex 101 69 then
    numberTail forcedInteger (exponentSign
      (nextChar (vstrAddChar {lex with tokKind := .floatOrImag} 101)))
  else if isLetter lex||isDigit lex||isChar lex 46 then
    numberTail forcedInteger (nextChar (vstrAddChar
      (if isCharOr3 lex 46 106 74 then {lex with tokKind := .floatOrImag} else lex) lex.chr0))
  else lex
termination_by left lex
decreasing_by
  · exact Nat.lt_of_le_of_lt (left_exponentSign _) (left_nextChar_same rfl rfl ‹_›)
  · split_ifs
    · exact left_nextChar_same rfl rfl ‹_›
    · exact left_nextChar_same rfl rfl ‹_›

/-- A number. -/
def number (lex : MpLexer) : MpLexer :=
  numberTail (!isChar lex 46&&(isChar lex 48&&isFollowingBaseChar lex))
    (nextChar (vstrAddChar
      {lex with tokKind := if isChar lex 46 then .floatOrImag else .integer} lex.chr0))

/-! ## Delimiters and operators -/

/-- `tok_enc`: a character by itself begins a token, one after `e` ends it and one after `c`
goes on with it. -/
def tokEnc : List ℕ := [40,41,91,93,123,125,44,58,59,64,126,60,101,61,99,60,101,61,
  62,101,61,99,62,101,61,
  42,101,61,99,42,101,61,
  43,101,61,
  45,101,61,101,62,
  38,101,61,
  124,101,61,
  47,101,61,99,47,101,61,
  37,101,61,
  94,101,61,
  61,101,61,
  33,46]

/-- `tok_enc_kind`. -/
def tokEncKind : List TokenKind := [
  .delParenOpen,.delParenClose,.delBracketOpen,.delBracketClose,.delBraceOpen,.delBraceClose,
  .delComma,.delColon,.delSemicolon,.delAt,.opTilde,.opLess,.opLessEqual,.opDblLess,
  .delDblLessEqual,.opMore,.opMoreEqual,.opDblMore,.delDblMoreEqual,.opStar,.delStarEqual,
  .opDblStar,.delDblStarEqual,.opPlus,.delPlusEqual,.opMinus,.delMinusEqual,.delMinusMore,
  .opAmpersand,.delAmpersandEqual,.opPipe,.delPipeEqual,.opSlash,.delSlashEqual,.opDblSlash,
  .delDblSlashEqual,.opPercent,.delPercentEqual,.opCaret,.delCaretEqual,.delEqual,.opDblEqual]

/-- The search for the encoding that begins with the character, with its index. -/
def findTokEnc (lex : MpLexer) : List ℕ→ℕ→List ℕ×ℕ
  | [],tokEncIndex => ([],tokEncIndex)
  | [c],tokEncIndex => if isChar lex c then ([c],tokEncIndex) else ([],tokEncIndex+1)
  | c::d::t,tokEncIndex =>
    if isChar lex c then (c::d::t,tokEncIndex)
    else if c=101∨c=99 then findTokEnc lex t (tokEncIndex+1)
    else findTokEnc lex (d::t) (tokEncIndex+1)

/-- The loop for the longest token, from the encoding after the first character on. -/
def longestToken (lex : MpLexer) : List ℕ→ℕ→ℕ→MpLexer×ℕ
  | c::d::t,tIndex,tokEncIndex =>
    if c=99∨c=101 then
      if isChar lex d then
        if c=101 then (nextChar lex,tIndex+1) else longestToken (nextChar lex) t (tIndex+1) (tIndex+1)
      else if c=99 then (lex,tokEncIndex)
      else longestToken lex t (tIndex+1) tokEncIndex
    else (lex,tokEncIndex)
  | _,_,tokEncIndex => (lex,tokEncIndex)

/-- How a kind of token changes the depth of brackets. -/
def bracketChange (kind : TokenKind) : ℤ :=
  if kind=.delParenOpen∨kind=.delBracketOpen∨kind=.delBraceOpen then 1
  else if kind=.delParenClose∨kind=.delBracketClose∨kind=.delBraceClose then -1
  else 0

/-- A delimiter or an operator, or a character that is none. -/
def operator (lex : MpLexer) : MpLexer :=
  match findTokEnc lex tokEnc 0 with
  | ([],_) => {nextChar lex with tokKind := .invalid}
  | (33::_,_) =>
    if isChar (nextChar lex) 61 then {nextChar (nextChar lex) with tokKind := .opNotEqual}
    else {nextChar lex with tokKind := .invalid}
  | (46::_,_) =>
    if isCharAnd (nextChar lex) 46 46 then
      {nextChar (nextChar (nextChar lex)) with tokKind := .ellipsis}
    else {nextChar lex with tokKind := .delPeriod}
  | (_::t,tokEncIndex) =>
    let (lex,index) := longestToken (nextChar lex) t tokEncIndex tokEncIndex
    let kind := tokEncKind.getD index .invalid
    {lex with
      tokKind := kind
      nestedBracketLevel := lex.nestedBracketLevel+bracketChange kind}

/-! ## Tokens -/

/-- `indent_top`. -/
def indentTop (lex : MpLexer) : ℕ := lex.indentLevel.headD 0

/-- `indent_push`. -/
def indentPush (lex : MpLexer) (indent : ℕ) : MpLexer :=
  {lex with indentLevel := indent%2^16::lex.indentLevel}

/-- The loop that pops the levels above the indentation. -/
def popIndents (numSpaces : ℕ) : List ℕ→ℤ→List ℕ×ℤ
  | [],emitDent => ([],emitDent)
  | top::levels,emitDent =>
    if numSpaces<top then popIndents numSpaces levels (emitDent-1) else (top::levels,emitDent)

/-- A new line and what its indentation brings. -/
def newline (lex : MpLexer) : MpLexer :=
  let numSpaces := (lex.column-1).toNat
  if numSpaces=indentTop lex then {lex with tokKind := .newline}
  else if indentTop lex<numSpaces then
    {indentPush lex numSpaces with
      tokKind := .newline
      emitDent := lex.emitDent+1}
  else
    let (levels,emitDent) := popIndents numSpaces lex.indentLevel lex.emitDent
    {lex with
      indentLevel := levels
      emitDent := emitDent
      tokKind := if numSpaces≠levels.headD 0 then .dedentMismatch else .newline}

/-- `mp_lexer_to_next`, unless it raises NotImplementedError. -/
def mpLexerToNext (optimise : ℕ) (lex : MpLexer) : Option MpLexer :=
  let (hadPhysicalNewline,lex) := skipWhitespace {lex with vstr := []} false
  let lex := {lex with
    tokLine := lex.line
    tokColumn := lex.column}
  if lex.emitDent<0 then
    some {lex with
      tokKind := .dedent
      emitDent := lex.emitDent+1}
  else if 0<lex.emitDent then
    some {lex with
      tokKind := .indent
      emitDent := lex.emitDent-1}
  else if hadPhysicalNewline=true∧lex.nestedBracketLevel=0 then some (newline lex)
  else if isEnd lex then some {lex with tokKind := .end}
  else if isStringOrBytes lex then literals {lex with tokKind := .end}
  else if isHeadOfIdentifier lex then some (name optimise lex)
  else if isDigit lex||(isChar lex 46&&isFollowingDigit lex) then some (number lex)
  else some (operator lex)

/-- The lexer before the text, with three dummy characters. -/
def blankLexer (str : List UInt8) : MpLexer where
  reader := str
  chr0 := 0
  chr1 := 0
  chr2 := 0
  line := 1
  column := -2
  emitDent := 0
  nestedBracketLevel := 0
  indentLevel := [0]
  tokLine := 0
  tokColumn := 0
  tokKind := .end
  vstr := []

/-- The lexer at the beginning of the text. -/
def loadedLexer (str : List UInt8) : MpLexer := nextChar (nextChar (nextChar (blankLexer str)))

/-- `mp_lexer_new_from_str_len`. -/
def mpLexerNew (optimise : ℕ) (str : List UInt8) : Option MpLexer :=
  (mpLexerToNext optimise (loadedLexer str)).map fun lex =>
    if lex.tokColumn≠1 then {lex with tokKind := .indent} else lex

end MicroPython.Lexer
