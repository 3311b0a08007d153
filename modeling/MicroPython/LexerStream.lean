import MicroPython.Lexer

/-!
# The characters that the lexer sees

Behind the window of the lexer there is a list of characters: the bytes of the text with CR
and CR LF as new lines, and a new line at the end. Moving the window takes the first of them
away, and what the lexer does depends on them only.
-/

namespace MicroPython.LexerStream

open List Unicode Lexer

variable {lex : MpLexer} {c d : ℕ} {cs : List ℕ}

/-- The characters that the bytes after a character become. -/
def following : ℕ→List ℕ→List ℕ
  | prev,[] => if prev=10∨prev=lexerEof then [] else [10]
  | _,13::10::reader => 10::following 10 reader
  | _,13::reader => 10::following 10 reader
  | _,c::reader => c::following c reader

/-- The characters of a text. -/
def textChars (str : List UInt8) : List ℕ := following 0 (str.map UInt8.toNat)

/-- The characters after the second place of the window. -/
def ahead (chr1 chr2 : ℕ) (reader : List UInt8) : List ℕ :=
  if chr2=lexerEof then [] else following chr1 (chr2::reader.map UInt8.toNat)

/-- The characters from the first place of the window on. -/
def stream (lex : MpLexer) : List ℕ :=
  if lex.chr0=lexerEof then []
  else lex.chr0::
    if lex.chr1=lexerEof then [] else lex.chr1::ahead lex.chr1 lex.chr2 lex.reader

/-- The window is in order: after the end there is nothing, there is a new line before it
and CR is converted. -/
structure Loaded (lex : MpLexer) : Prop where
  /-- After the first place. -/
  end0 : lex.chr0=lexerEof → lex.chr1=lexerEof
  /-- After the second place. -/
  end1 : lex.chr1=lexerEof → lex.chr2=lexerEof
  /-- After the third place. -/
  end2 : lex.chr2=lexerEof → lex.reader=[]∧(lex.chr1=lexerEof∨lex.chr1=10)
  /-- The second place has been converted. -/
  converted : lex.chr1≠13

/-- The lexer sees characters. -/
structure Sees (lex : MpLexer) (cs : List ℕ) : Prop where
  /-- Its window is in order. -/
  loaded : Loaded lex
  /-- They are what comes. -/
  stream_eq : stream lex=cs

/-- A byte is not the end. -/
theorem toNat_ne_eof (c : UInt8) : c.toNat≠lexerEof := by
  have hlt := c.toNat_lt
  rw [lexerEof]
  omega

/-- A character that is no CR becomes itself. -/
theorem following_cons {prev : ℕ} (hc : c≠13) (reader : List ℕ) :
    following prev (c::reader)=c::following c reader := by
  rw [following.eq_def]
  split
  · case h_1 h => cases h
  · case h_2 h => exact absurd (List.cons.inj h).1 hc
  · case h_3 h => exact absurd (List.cons.inj h).1 hc
  · case h_4 h =>
    cases h
    rfl

/-! ## Moving the window -/

/-- The first character of a list of bytes, or the end. -/
def firstChar : List UInt8→ℕ
  | [] => lexerEof
  | c::_ => c.toNat

theorem readChar_last (lex : MpLexer) :
    (readChar lex).chr2=firstChar lex.reader∧(readChar lex).reader=lex.reader.tail := by
  rw [readChar]
  split
  case h_1 h => exact ⟨by rw [h]; rfl,by rw [h]; rfl⟩
  case h_2 c reader h => exact ⟨by rw [h]; rfl,by rw [h]; rfl⟩

/-- The window before CR is converted. -/
theorem shift_fields (lex : MpLexer) :
    (shift (movePosition lex)).chr0=lex.chr1∧(shift (movePosition lex)).chr1=lex.chr2∧
      (shift (movePosition lex)).chr2=firstChar lex.reader∧
      (shift (movePosition lex)).reader=lex.reader.tail := by
  obtain ⟨_,h1,h2,hreader⟩ := movePosition_fields lex
  have hfields := readChar_fields {movePosition lex with
    chr0 := (movePosition lex).chr1
    chr1 := (movePosition lex).chr2}
  have hlast := readChar_last {movePosition lex with
    chr0 := (movePosition lex).chr1
    chr1 := (movePosition lex).chr2}
  rw [←shift] at hfields hlast
  exact ⟨hfields.1.trans h1,hfields.2.trans h2,hlast.1.trans (congrArg firstChar hreader),
    hlast.2.trans (congrArg List.tail hreader)⟩

/-- What the new line at the end does to the window. -/
theorem insertNewline_fields (lex : MpLexer) :
    (insertNewline lex).chr0=lex.chr0∧(insertNewline lex).chr1=lex.chr1∧(insertNewline lex).chr2=
        (if lex.chr2=lexerEof∧lex.chr1≠lexerEof∧lex.chr1≠10 then 10 else lex.chr2)∧
      (insertNewline lex).reader=lex.reader := by
  rw [insertNewline]
  split_ifs
  · exact ⟨rfl,rfl,rfl,rfl⟩
  · exact ⟨rfl,rfl,rfl,rfl⟩

/-- What the conversion of a CR does to the window. -/
theorem convertCr_fields (h : lex.chr1=13) : (convertCr lex).chr0=lex.chr0∧(convertCr lex).chr1=10∧
      (convertCr lex).chr2=(if lex.chr2=10 then firstChar lex.reader else lex.chr2)∧
      (convertCr lex).reader=if lex.chr2=10 then lex.reader.tail else lex.reader := by
  rw [convertCr,if_pos h]
  split_ifs
  · exact ⟨(readChar_fields _).1,(readChar_fields _).2,(readChar_last _).1,(readChar_last _).2⟩
  · exact ⟨rfl,rfl,rfl,rfl⟩

/-- The window after a character that is no CR. -/
theorem nextChar_plain (h : lex.chr2≠13) :
    (nextChar lex).chr0=lex.chr1∧(nextChar lex).chr1=lex.chr2∧(nextChar lex).chr2=
        (if firstChar lex.reader=lexerEof∧lex.chr2≠lexerEof∧lex.chr2≠10 then 10
          else firstChar lex.reader)∧
      (nextChar lex).reader=lex.reader.tail := by
  obtain ⟨h0,h1,h2,hreader⟩ := shift_fields lex
  have hconvert : convertCr (shift (movePosition lex))=shift (movePosition lex) := by
    rw [convertCr,h1,if_neg h]
  have hinsert := insertNewline_fields (shift (movePosition lex))
  rw [h0,h1,h2,hreader] at hinsert
  rw [nextChar,hconvert]
  exact hinsert

/-- The window after a CR. -/
theorem nextChar_cr (h : lex.chr2=13) : (nextChar lex).chr0=lex.chr1∧(nextChar lex).chr1=10∧
      (nextChar lex).chr2=
        (if firstChar lex.reader=10 then firstChar lex.reader.tail else firstChar lex.reader)∧
      (nextChar lex).reader=
        if firstChar lex.reader=10 then lex.reader.tail.tail else lex.reader.tail := by
  obtain ⟨h0,h1,h2,hreader⟩ := shift_fields lex
  have hconvert := convertCr_fields (h1.trans h)
  have hinsert := insertNewline_fields (convertCr (shift (movePosition lex)))
  rw [h0,h2,hreader] at hconvert
  obtain ⟨hc0,hc1,hc2,hcreader⟩ := hconvert
  rw [hc0,hc1,hc2,hcreader,if_neg (fun hten => hten.2.2 rfl)] at hinsert
  exact hinsert

theorem following_newline (reader : List UInt8) :
    following 10 (reader.map UInt8.toNat)=ahead 10 (firstChar reader) reader.tail := by
  cases reader with
  | nil => rfl
  | cons c reader =>
    rw [ahead,firstChar,if_neg (toNat_ne_eof c)]
    rfl

/-- The characters after a character that is no new line. -/
theorem following_plain {prev : ℕ} (heof : prev≠lexerEof) (hten : prev≠10) (reader : List UInt8) :
    following prev (reader.map UInt8.toNat)=
      ahead prev (if firstChar reader=lexerEof then 10 else firstChar reader) reader.tail := by
  cases reader with
  | nil =>
    have hnewline : following prev []=[10] := if_neg (not_or.mpr ⟨hten,heof⟩)
    exact hnewline
  | cons c reader =>
    rw [ahead,firstChar,if_neg (toNat_ne_eof c),if_neg (toNat_ne_eof c)]
    rfl

theorem firstChar_eq_eof {reader : List UInt8} (h : firstChar reader=lexerEof) : reader=[] := by
  cases reader with
  | nil => rfl
  | cons c reader => exact absurd h (toNat_ne_eof c)

/-- The characters that a CR and what comes after it become. -/
theorem following_cr {prev : ℕ} (reader : List UInt8) :
    following prev (13::reader.map UInt8.toNat)=10::following 10
      ((if firstChar reader=10 then reader.tail else reader).map UInt8.toNat) := by
  cases reader with
  | nil => rfl
  | cons c reader =>
    by_cases hlf : c.toNat=10
    · have hfirst : firstChar (c::reader)=10 := hlf
      rw [if_pos hfirst,map_cons,hlf]
      rfl
    · have hfirst : ¬firstChar (c::reader)=10 := hlf
      rw [if_neg hfirst,map_cons,following.eq_def]
      split
      case h_1 h => cases h
      case h_2 h => exact absurd (List.cons.inj (List.cons.inj h).2).1 hlf
      case h_3 h =>
        rw [(List.cons.inj h).2]
      case h_4 hnot h => exact (hnot (List.cons.inj h).1.symm).elim

/-- Moving the window before the end. -/
theorem loaded_nextChar (h : Loaded lex) (heof : lex.chr2≠lexerEof) :
    Loaded (nextChar lex)∧(nextChar lex).chr0=lex.chr1∧(nextChar lex).chr1≠lexerEof∧
      following lex.chr1 (lex.chr2::lex.reader.map UInt8.toNat)=(nextChar lex).chr1::
          ahead (nextChar lex).chr1 (nextChar lex).chr2 (nextChar lex).reader := by
  have hchr1 : lex.chr1≠lexerEof := fun hend => heof (h.end1 hend)
  have hten : (10 : ℕ)≠lexerEof := by decide
  by_cases hcr : lex.chr2=13
  · obtain ⟨h0,h1,h2,hreader⟩ := nextChar_cr hcr
    rw [h0,h1,h2,hreader,hcr,following_cr]
    have hsame : (nextChar lex).chr2=firstChar
        (if firstChar lex.reader=10 then lex.reader.tail else lex.reader)∧(nextChar lex).reader=
        (if firstChar lex.reader=10 then lex.reader.tail else lex.reader).tail := by
      rw [h2,hreader]
      split_ifs
      · exact ⟨rfl,rfl⟩
      · exact ⟨rfl,rfl⟩
    refine ⟨⟨fun hend => absurd (h0.symm.trans hend) hchr1,fun hend => absurd (h1.symm.trans hend)
      hten,fun hend => ⟨?_,.inr h1⟩,by rw [h1]; decide⟩,rfl,hten,?_⟩
    · rw [hsame.2,firstChar_eq_eof (hsame.1.symm.trans hend)]
      rfl
    · rw [following_newline,←hsame.1,←hsame.2,h2,hreader]
  · obtain ⟨h0,h1,h2,hreader⟩ := nextChar_plain hcr
    rw [h0,h1,h2,hreader,following_cons hcr]
    refine ⟨⟨fun hend => absurd (h0.symm.trans hend) hchr1,fun hend => absurd (h1.symm.trans hend)
      heof,fun hend => ?_,by rw [h1]; exact hcr⟩,rfl,heof,?_⟩
    · rw [h2] at hend
      split_ifs at hend with hinsert
      · exact absurd hend hten
      · have hnone := firstChar_eq_eof hend
        rw [hreader,hnone,h1]
        refine ⟨rfl,.inr (by_contra fun hlf => hinsert ⟨?_,heof,hlf⟩)⟩
        exact hend
    · by_cases hlf : lex.chr2=10
      · rw [if_neg (fun hinsert => hinsert.2.2 hlf),hlf,following_newline]
      · rw [following_plain heof hlf]
        have hcond : firstChar lex.reader=lexerEof∧lex.chr2≠lexerEof∧lex.chr2≠10↔
            firstChar lex.reader=lexerEof := and_iff_left ⟨heof,hlf⟩
        simp only [hcond]

/-- Moving the window keeps it in order and takes the first character away. -/
theorem Sees.nextChar (h : Sees lex cs) : Sees (nextChar lex) cs.tail := by
  obtain ⟨hloaded,hstream⟩ := h
  rw [←hstream,stream]
  by_cases heof : lex.chr2=lexerEof
  · have hthirteen : lex.chr2≠13 := by
      rw [heof]
      decide
    obtain ⟨h0,h1,h2,hreader⟩ := nextChar_plain hthirteen
    obtain ⟨hempty,hlast⟩ := hloaded.end2 heof
    rw [hempty,if_neg (fun hinsert => hinsert.2.1 heof)] at h2
    rw [heof] at h1
    rw [hempty] at hreader
    refine ⟨⟨fun _ => h1,fun _ => h2,fun _ => ⟨hreader,.inl h1⟩,by rw [h1]; decide⟩,?_⟩
    rw [stream,h0,h1,if_pos rfl,ahead,if_pos heof]
    by_cases hend : lex.chr0=lexerEof
    · rw [if_pos hend,if_pos (hloaded.end0 hend)]
      rfl
    · rw [if_neg hend,tail_cons]
  · obtain ⟨hnext,h0,h1,hfollowing⟩ := loaded_nextChar hloaded heof
    have hchr1 : lex.chr1≠lexerEof := fun hend => heof (hloaded.end1 hend)
    have hchr0 : lex.chr0≠lexerEof := fun hend => hchr1 (hloaded.end0 hend)
    refine ⟨hnext,?_⟩
    rw [stream,h0,if_neg hchr1,if_neg h1,if_neg hchr0,if_neg hchr1,tail_cons,←hfollowing]
    exact congrArg (lex.chr1::·) (if_neg heof).symm

theorem sees_loadedLexer (str : List UInt8) : Sees (loadedLexer str) (textChars str) := by
  have hblank : Sees (blankLexer str) (0::0::following 0 (0::str.map UInt8.toNat)) := by
    have hzero : (0 : ℕ)≠lexerEof := by decide
    have hconverted : (0 : ℕ)≠13 := by decide
    exact ⟨⟨fun h => absurd h hzero,fun h => absurd h hzero,fun h => absurd h hzero,hconverted⟩,rfl⟩
  have hload := hblank.nextChar.nextChar.nextChar
  rw [following_cons (by decide)] at hload
  exact hload

/-! ## Looking -/

/-- The first character. -/
theorem Sees.chr0 (h : Sees lex (c::cs)) : lex.chr0=c∧lex.chr0≠lexerEof := by
  have hstream := h.stream_eq
  rw [stream] at hstream
  split_ifs at hstream with hend hend1
  · exact ⟨(List.cons.inj hstream).1,hend⟩
  · exact ⟨(List.cons.inj hstream).1,hend⟩

/-- The second character. -/
theorem Sees.chr1 (h : Sees lex (c::d::cs)) : lex.chr1=d := by
  have hstream := h.stream_eq
  rw [stream] at hstream
  split_ifs at hstream with hend hend1
  · cases hstream
  · exact (List.cons.inj (List.cons.inj hstream).2).1

theorem Sees.atEnd (h : Sees lex []) : lex.chr0=lexerEof := by
  have hstream := h.stream_eq
  rw [stream] at hstream
  split_ifs at hstream with hend
  exact hend

/-- A text without new lines is seen with a new line at the end. -/
theorem textChars_plain {str : List UInt8} (h : ∀ c∈str,c.toNat≠13∧c.toNat≠10) :
    textChars str=str.map UInt8.toNat++[10] := by
  have hfrom : ∀ (str : List UInt8) (prev : ℕ),prev≠10 → prev≠lexerEof →
      (∀ c∈str,c.toNat≠13∧c.toNat≠10) →
      following prev (str.map UInt8.toNat)=str.map UInt8.toNat++[10] := by
    intro str
    induction str with
    | nil => exact fun prev hten heof _ => if_neg (not_or.mpr ⟨hten,heof⟩)
    | cons c str ih =>
      intro prev _ _ hall
      obtain ⟨hc,hstr⟩ := forall_mem_cons.mp hall
      rw [map_cons,following_cons hc.1,ih c.toNat hc.2 (toNat_ne_eof c) hstr,cons_append]
  exact hfrom str 0 (by decide) (by decide) h

/-! ## What stays -/

variable {lex' : MpLexer}

/-- What stays while the characters of a token are read. -/
structure SameToken (lex lex' : MpLexer) : Prop where
  tokKind : lex'.tokKind=lex.tokKind
  tokColumn : lex'.tokColumn=lex.tokColumn
  /-- The INDENT and DEDENT tokens to come. -/
  emitDent : lex'.emitDent=lex.emitDent
  nestedBracketLevel : lex'.nestedBracketLevel=lex.nestedBracketLevel
  indentLevel : lex'.indentLevel=lex.indentLevel

/-- Nothing changes. -/
theorem SameToken.refl (lex : MpLexer) : SameToken lex lex := ⟨rfl,rfl,rfl,rfl,rfl⟩

/-- What stays twice stays. -/
theorem SameToken.trans {lex'' : MpLexer} (h : SameToken lex lex') (h' : SameToken lex' lex'') :
    SameToken lex lex'' :=
  ⟨h'.tokKind.trans h.tokKind,h'.tokColumn.trans h.tokColumn,h'.emitDent.trans h.emitDent,
    h'.nestedBracketLevel.trans h.nestedBracketLevel,h'.indentLevel.trans h.indentLevel⟩

/-- Moving the window leaves the token alone. -/
theorem sameToken_nextChar (lex : MpLexer) :
    SameToken lex (nextChar lex)∧(nextChar lex).vstr=lex.vstr := by
  have hmove : SameToken lex (movePosition lex)∧(movePosition lex).vstr=lex.vstr := by
    rw [movePosition]
    split_ifs
    · exact ⟨⟨rfl,rfl,rfl,rfl,rfl⟩,rfl⟩
    · exact ⟨⟨rfl,rfl,rfl,rfl,rfl⟩,rfl⟩
    · exact ⟨⟨rfl,rfl,rfl,rfl,rfl⟩,rfl⟩
  have hread : ∀ lex : MpLexer,SameToken lex (readChar lex)∧(readChar lex).vstr=lex.vstr := by
    intro lex
    rw [readChar]
    split
    · exact ⟨⟨rfl,rfl,rfl,rfl,rfl⟩,rfl⟩
    · exact ⟨⟨rfl,rfl,rfl,rfl,rfl⟩,rfl⟩
  have hshift : ∀ lex : MpLexer,SameToken lex (shift lex)∧(shift lex).vstr=lex.vstr := by
    intro lex
    obtain ⟨hsame,hvstr⟩ := hread {lex with
      chr0 := lex.chr1
      chr1 := lex.chr2}
    exact ⟨⟨hsame.tokKind,hsame.tokColumn,hsame.emitDent,hsame.nestedBracketLevel,
      hsame.indentLevel⟩,hvstr⟩
  have hconvert : ∀ lex : MpLexer,SameToken lex (convertCr lex)∧(convertCr lex).vstr=lex.vstr := by
    intro lex
    rw [convertCr]
    split_ifs
    · obtain ⟨hsame,hvstr⟩ := hread {lex with chr1 := 10}
      exact ⟨⟨hsame.tokKind,hsame.tokColumn,hsame.emitDent,hsame.nestedBracketLevel,
        hsame.indentLevel⟩,hvstr⟩
    · exact ⟨⟨rfl,rfl,rfl,rfl,rfl⟩,rfl⟩
    · exact ⟨SameToken.refl _,rfl⟩
  have hinsert : ∀ lex : MpLexer,
      SameToken lex (insertNewline lex)∧(insertNewline lex).vstr=lex.vstr := by
    intro lex
    rw [insertNewline]
    split_ifs
    · exact ⟨⟨rfl,rfl,rfl,rfl,rfl⟩,rfl⟩
    · exact ⟨SameToken.refl _,rfl⟩
  rw [nextChar]
  exact ⟨hmove.1.trans ((hshift _).1.trans ((hconvert _).1.trans (hinsert _).1)),
    (hinsert _).2.trans ((hconvert _).2.trans ((hshift _).2.trans hmove.2))⟩

/-- What is not in the window does not matter for what is seen. -/
theorem Sees.congr (h : Sees lex cs) (h0 : lex'.chr0=lex.chr0) (h1 : lex'.chr1=lex.chr1)
    (h2 : lex'.chr2=lex.chr2) (hreader : lex'.reader=lex.reader) : Sees lex' cs := by
  obtain ⟨⟨hend0,hend1,hend2,hconverted⟩,hstream⟩ := h
  constructor
  · rw [←h0,←h1] at hend0
    rw [←h1,←h2] at hend1
    rw [←h2,←hreader,←h1] at hend2
    rw [←h1] at hconverted
    exact ⟨hend0,hend1,hend2,hconverted⟩
  · rw [stream,h0,h1,h2,hreader]
    exact hstream

theorem Sees.not_isEnd (h : Sees lex (c::cs)) : ¬isEnd lex=true :=
  fun hend => h.chr0.2 (of_decide_eq_true hend)

/-- White space is not skipped where a literal or a name begins. -/
theorem skipWhitespace_start (h : Sees lex (c::cs))
    (hc : c=34∨c=39∨c=98∨c=97) : skipWhitespace lex false=(false,lex) := by
  have hnone : ¬isPhysicalNewline lex=true∧¬isWhitespace lex=true∧¬isChar lex 35=true∧
      ¬isCharAnd lex 92 10=true := by
    rw [isPhysicalNewline,isWhitespace,isChar,isCharAnd,h.chr0.1]
    rcases hc with rfl | rfl | rfl | rfl <;> simp <;> decide
  obtain ⟨hnewline,hspace,hcomment,hcontinued⟩ := hnone
  rw [skipWhitespace,skipWhitespaceLoop,dif_neg h.not_isEnd,if_neg hnewline,if_neg hspace,
    if_neg hcomment,if_neg hcontinued]

/-- The position moves with the window. -/
theorem nextChar_column (lex : MpLexer) : (nextChar lex).column=(movePosition lex).column := by
  have hread : ∀ lex : MpLexer,(readChar lex).column=lex.column := by
    intro lex
    rw [readChar]
    split
    · rfl
    · rfl
  have hconvert : ∀ lex : MpLexer,(convertCr lex).column=lex.column := by
    intro lex
    rw [convertCr]
    split_ifs
    · exact hread _
    · rfl
    · rfl
  have hinsert : ∀ lex : MpLexer,(insertNewline lex).column=lex.column := by
    intro lex
    rw [insertNewline]
    split_ifs
    · rfl
    · rfl
  rw [nextChar,hinsert,hconvert,shift,hread]

theorem column_newline (h : lex.chr0=10) : (nextChar lex).column=1 := by
  rw [nextChar_column,movePosition,if_pos h]

theorem column_plain (hnewline : lex.chr0≠10) (htab : lex.chr0≠9) :
    (nextChar lex).column=lex.column+1 := by
  rw [nextChar_column,movePosition,if_neg hnewline,if_neg htab]

/-- The lexer at the beginning of a text. -/
theorem loadedLexer_fields (str : List UInt8) :
    SameToken (blankLexer str) (loadedLexer str)∧(loadedLexer str).vstr=[]∧
      (loadedLexer str).column=1 := by
  have hsees : Sees (blankLexer str) (0::0::0::textChars str) := by
    have hzero : (0 : ℕ)≠lexerEof := by decide
    have hconverted : (0 : ℕ)≠13 := by decide
    have hfirst : following 0 (0::str.map UInt8.toNat)=0::textChars str :=
      following_cons (by decide) _
    rw [←hfirst]
    exact ⟨⟨fun h => absurd h hzero,fun h => absurd h hzero,fun h => absurd h hzero,hconverted⟩,rfl⟩
  have hplain : ∀ {lex : MpLexer} {cs : List ℕ},Sees lex (0::cs) →
      (nextChar lex).column=lex.column+1 := by
    intro lex cs h
    refine column_plain ?_ ?_
    · rw [h.chr0.1]
      decide
    · rw [h.chr0.1]
      decide
  obtain ⟨hsame1,hvstr1⟩ := sameToken_nextChar (blankLexer str)
  obtain ⟨hsame2,hvstr2⟩ := sameToken_nextChar (nextChar (blankLexer str))
  obtain ⟨hsame3,hvstr3⟩ := sameToken_nextChar (nextChar (nextChar (blankLexer str)))
  refine ⟨hsame1.trans (hsame2.trans hsame3),hvstr3.trans (hvstr2.trans hvstr1),?_⟩
  rw [loadedLexer,hplain hsees.nextChar.nextChar,hplain hsees.nextChar,hplain hsees]
  rfl

end MicroPython.LexerStream
