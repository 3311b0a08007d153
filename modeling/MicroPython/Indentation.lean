import MicroPython.LexerAdvance

/-!
# Indentation

What the lexer makes of the indentation of lines: the columns of the blocks that are open, the
INDENT and DEDENT tokens that are to come, and the depth of brackets. Reading the characters of
a token leaves them alone.
-/

namespace MicroPython.Indentation

open Nat List Unicode Lexer LexerStream LexerAdvance

variable {lex lex' lex'' : MpLexer}

/-! ## Reading characters -/

/-- The window of the lexer: before the end there is a new line, so the end is in the first
column. -/
structure Placed (lex : MpLexer) : Prop where
  column : lex.chr0=lexerEof → lex.column=1
  /-- The end in the second place. -/
  last1 : lex.chr1=lexerEof → lex.chr0=lexerEof∨lex.chr0=10
  /-- The end in the third place. -/
  last2 : lex.chr2=lexerEof → lex.chr1=lexerEof∨lex.chr1=10

/-- Kinds that a token gets while its characters are read. -/
def ReadKind (kind : TokenKind) : Prop :=
  kind=.invalid∨kind=.lonelyStringOpen∨kind=.floatOrImag∨kind=.string∨kind=.bytes

/-- What stays while characters are read. -/
structure Reads (lex lex' : MpLexer) : Prop where
  /-- The INDENT and DEDENT tokens to come. -/
  emitDent : lex'.emitDent=lex.emitDent
  nestedBracketLevel : lex'.nestedBracketLevel=lex.nestedBracketLevel
  indentLevel : lex'.indentLevel=lex.indentLevel
  tokColumn : lex'.tokColumn=lex.tokColumn
  placed : Placed lex → Placed lex'
  /-- The kind of the token, unless it gets one of its own. -/
  kind : lex'.tokKind=lex.tokKind∨ReadKind lex'.tokKind
  /-- What is left to read does not become more. -/
  left_le : left lex'≤left lex

theorem Reads.refl (lex : MpLexer) : Reads lex lex :=
  ⟨rfl,rfl,rfl,rfl,id,.inl rfl,le_refl _⟩

/-- One reading after another. -/
theorem Reads.trans (h : Reads lex lex') (h' : Reads lex' lex'') : Reads lex lex'' where
  emitDent := h'.emitDent.trans h.emitDent
  nestedBracketLevel := h'.nestedBracketLevel.trans h.nestedBracketLevel
  indentLevel := h'.indentLevel.trans h.indentLevel
  tokColumn := h'.tokColumn.trans h.tokColumn
  placed hplaced := h'.placed (h.placed hplaced)
  kind := by
    rcases h'.kind with hkind | hkind
    · rw [hkind]
      exact h.kind
    · exact .inr hkind
  left_le := le_trans h'.left_le h.left_le

theorem chr0_nextChar (lex : MpLexer) : (nextChar lex).chr0=lex.chr1 := by
  by_cases hcr : lex.chr2=13
  · exact (nextChar_cr hcr).1
  · exact (nextChar_plain hcr).1

/-- Behind a character that is no new line there is no end. -/
theorem Placed.not_end (h : Placed lex) (heof : lex.chr0≠lexerEof) (hten : lex.chr0≠10) :
    (nextChar lex).chr0≠lexerEof := by
  rw [chr0_nextChar]
  intro hend
  rcases h.last1 hend with h0 | h0
  · exact heof h0
  · exact hten h0

/-- `next_char` before the end keeps the place of the end. -/
theorem Placed.nextChar (h : Placed lex) (heof : lex.chr0≠lexerEof) : Placed (nextChar lex) := by
  have hcolumn : (Lexer.nextChar lex).chr0=lexerEof → (Lexer.nextChar lex).column=1 := by
    intro hend
    rw [chr0_nextChar] at hend
    rcases h.last1 hend with h0 | h0
    · exact absurd h0 heof
    · exact column_newline h0
  by_cases hcr : lex.chr2=13
  · obtain ⟨_,h1,h2,_⟩ := nextChar_cr hcr
    refine ⟨hcolumn,fun hend => ?_,fun _ => .inr h1⟩
    rw [h1] at hend
    exact absurd hend (by decide)
  · obtain ⟨h0,h1,h2,_⟩ := nextChar_plain hcr
    refine ⟨hcolumn,fun hend => ?_,fun hend => ?_⟩
    · rw [h0]
      exact h.last2 (h1.symm.trans hend)
    · rw [h2] at hend
      rw [h1]
      split_ifs at hend with hinsert
      · exact absurd hend (by decide)
      · by_contra hnone
        rw [not_or] at hnone
        exact hinsert ⟨hend,hnone⟩

/-- `next_char` before the end. -/
theorem reads_nextChar (heof : lex.chr0≠lexerEof) : Reads lex (nextChar lex) where
  emitDent := (sameToken_nextChar lex).1.emitDent
  nestedBracketLevel := (sameToken_nextChar lex).1.nestedBracketLevel
  indentLevel := (sameToken_nextChar lex).1.indentLevel
  tokColumn := (sameToken_nextChar lex).1.tokColumn
  placed hplaced := hplaced.nextChar heof
  kind := .inl (sameToken_nextChar lex).1.tokKind
  left_le := left_nextChar_le lex

/-- `next_char` after other characters. -/
theorem Reads.nextChar (h : Reads lex lex') (heof : lex'.chr0≠lexerEof) :
    Reads lex (nextChar lex') :=
  h.trans (reads_nextChar heof)

/-- The text of the token does not matter. -/
theorem reads_vstr (lex : MpLexer) (vstr : List UInt8) : Reads lex {lex with vstr := vstr} where
  emitDent := rfl
  nestedBracketLevel := rfl
  indentLevel := rfl
  tokColumn := rfl
  placed h := ⟨h.column,h.last1,h.last2⟩
  kind := .inl rfl
  left_le := le_refl _

variable {kind : TokenKind} {isRaw : Bool}

theorem reads_kind (lex : MpLexer) (h : ReadKind kind) : Reads lex {lex with tokKind := kind} where
  emitDent := rfl
  nestedBracketLevel := rfl
  indentLevel := rfl
  tokColumn := rfl
  placed h := ⟨h.column,h.last1,h.last2⟩
  kind := .inr h
  left_le := le_refl _

/-- What is before the end. -/
theorem chr0_of_not_isEnd (h : ¬isEnd lex=true) : lex.chr0≠lexerEof :=
  fun heof => h (decide_eq_true heof)

theorem steps_reads : Steps Reads where
  refl := .refl
  trans := .trans
  next lex h := reads_nextChar (chr0_of_not_isEnd h)
  continued lex h := by
    have hboth : lex.chr0=92∧lex.chr1=10 := of_decide_eq_true h
    refine reads_nextChar ?_
    rw [chr0_nextChar,hboth.2]
    decide

/-! ## Literals -/

/-- Hexadecimal digits are no new lines and not the end. -/
theorem ne_of_isxdigit {c : ℕ} (h : unicharIsxdigit c=true) : c≠lexerEof∧c≠10 := by
  refine ⟨?_,?_⟩
  · rintro rfl
    exact absurd h (by decide)
  · rintro rfl
    exact absurd h (by decide)

/-- Hexadecimal digits are read after a character that is no new line. -/
theorem reads_getHex (numDigits : ℕ) : ∀ num lex,Placed lex → lex.chr0≠lexerEof →
    lex.chr0≠10 → Reads lex (getHex numDigits num lex).1∧
      (getHex numDigits num lex).1.chr0≠lexerEof := by
  induction numDigits with
  | zero => exact fun num lex _ heof _ => ⟨.refl lex,heof⟩
  | succ numDigits ih =>
    intro num lex hplaced heof hten
    rw [getHex]
    split_ifs with hdigit
    · obtain ⟨heof',hten'⟩ := ne_of_isxdigit hdigit
      obtain ⟨hreads,hlast⟩ := ih _ (nextChar lex) (hplaced.nextChar heof) heof' hten'
      exact ⟨(reads_nextChar heof).trans hreads,hlast⟩
    · exact ⟨reads_nextChar heof,hplaced.not_end heof hten⟩

/-- Octal digits are read. -/
theorem reads_getOctal (digits : ℕ) : ∀ num lex,lex.chr0≠lexerEof →
    Reads lex (getOctal digits num lex).1∧(getOctal digits num lex).1.chr0≠lexerEof := by
  induction digits with
  | zero => exact fun num lex heof => ⟨.refl lex,heof⟩
  | succ digits ih =>
    intro num lex heof
    rw [getOctal]
    split_ifs with hdigit
    · have heof' : (nextChar lex).chr0≠lexerEof := by
        have hrange : 48≤lex.chr1∧lex.chr1≤55 := of_decide_eq_true hdigit
        rw [chr0_nextChar,lexerEof]
        omega
      obtain ⟨hreads,hlast⟩ := ih _ (nextChar lex) heof'
      exact ⟨(reads_nextChar heof).trans hreads,hlast⟩
    · exact ⟨.refl lex,heof⟩

theorem reads_hexEscape (numDigits : ℕ) (hplaced : Placed lex) (heof : lex.chr0≠lexerEof)
    (hten : lex.chr0≠10) : Reads lex (hexEscape numDigits lex).1∧
      (hexEscape numDigits lex).1.chr0≠lexerEof := by
  have hhex := reads_getHex numDigits 0 lex hplaced heof hten
  rw [hexEscape]
  split
  case h_1 lex' num h =>
    rw [h] at hhex
    exact hhex
  case h_2 lex' h =>
    rw [h] at hhex
    exact ⟨hhex.1.trans (reads_kind lex' (.inl rfl)),hhex.2⟩

theorem reads_escapedChar {r : MpLexer×ℕ} (hplaced : Placed lex) (heof : lex.chr0≠lexerEof)
    (h : escapedChar lex=some r) : Reads lex r.1∧r.1.chr0≠lexerEof := by
  rw [escapedChar] at h
  split at h
  all_goals try split_ifs at h
  all_goals cases h
  all_goals first
    | with_reducible exact reads_getOctal _ _ _ heof
    | exact ⟨reads_vstr _ _,heof⟩
    | exact ⟨.refl _,heof⟩
    | next hchr _ => exact reads_hexEscape _ hplaced heof (by rw [hchr]; decide)
    | next hchr => exact reads_hexEscape _ hplaced heof (by rw [hchr]; decide)

theorem reads_addEscaped (lex : MpLexer) (c : ℕ) :
    Reads lex (addEscaped lex c)∧(addEscaped lex c).chr0=lex.chr0 := by
  rw [addEscaped]
  split_ifs
  · exact ⟨.refl lex,rfl⟩
  · exact ⟨reads_vstr lex _,rfl⟩
  · exact ⟨reads_vstr lex _,rfl⟩
  · exact ⟨reads_kind lex (.inl rfl),rfl⟩

/-- What follows a backslash is read. -/
theorem reads_backslash (hplaced : Placed lex) (hchr : lex.chr0=92)
    (h : backslash isRaw lex=some lex') : Reads lex lex'∧lex'.chr0≠lexerEof := by
  have heof : lex.chr0≠lexerEof := by
    rw [hchr]
    decide
  have hten : lex.chr0≠10 := by
    rw [hchr]
    decide
  have hnext := hplaced.not_end heof hten
  rw [backslash] at h
  split_ifs at h
  · cases h
    obtain ⟨hreads,hsame⟩ := reads_addEscaped (vstrAddChar (nextChar lex) 92) (nextChar lex).chr0
    rw [hsame]
    have hadd : Reads (nextChar lex) (vstrAddChar (nextChar lex) 92) := reads_vstr _ _
    exact ⟨(reads_nextChar heof).trans (hadd.trans hreads),hnext⟩
  · obtain ⟨r,hr,heq⟩ := Option.map_eq_some_iff.mp h
    obtain ⟨hescape,hlast⟩ := reads_escapedChar (hplaced.nextChar heof) hnext hr
    obtain ⟨hreads,hsame⟩ := reads_addEscaped r.1 r.2
    rw [←heq,hsame]
    exact ⟨(reads_nextChar heof).trans (hescape.trans hreads),hlast⟩

theorem reads_literalLoop {quoteChar numQuotes : ℕ} (nClosing : ℕ)
    (lex : MpLexer) (hplaced : Placed lex) (r : ℕ×MpLexer)
    (hr : literalLoop quoteChar numQuotes isRaw nClosing lex=some r) : Reads lex r.2 := by
  have hsteps : Steps fun lex lex' => Placed lex → Reads lex lex' :=
    ⟨fun lex _ => .refl lex,fun h h' hplaced => (h hplaced).trans (h' ((h hplaced).placed hplaced)),
      fun lex h _ => steps_reads.next lex h,fun lex h _ => steps_reads.continued lex h⟩
  refine hsteps.literalLoop (fun lex vstr _ => reads_vstr lex vstr)
    (fun hslash hbackslash hplaced => ?_) nClosing lex r hr hplaced
  obtain ⟨hreads,hlast⟩ := reads_backslash hplaced (of_decide_eq_true hslash) hbackslash
  exact hreads.nextChar hlast

theorem reads_closeLiteral (numQuotes nClosing : ℕ) (lex : MpLexer) :
    Reads lex (closeLiteral numQuotes nClosing lex) := by
  rw [closeLiteral]
  split_ifs
  · exact (reads_kind lex (.inr (.inl rfl))).trans (reads_vstr _ _)
  · exact reads_vstr lex _

/-- A quote is no new line and not the end. -/
theorem ne_of_quote {c : ℕ} (h : c=34∨c=39) : c≠lexerEof∧c≠10 := by
  rcases h with rfl | rfl
  · exact ⟨by decide,by decide⟩
  · exact ⟨by decide,by decide⟩

/-- A literal is read from its first quote on. -/
theorem reads_parseStringLiteral (hplaced : Placed lex)
    (hquote : lex.chr0=34∨lex.chr0=39) (h : parseStringLiteral lex isRaw=some lex') :
    Reads lex lex' := by
  have hfirst := reads_nextChar (ne_of_quote hquote).1
  have hquoteOf : quoteOf lex=34∨quoteOf lex=39 := by
    rw [quoteOf]
    split_ifs
    · exact .inl rfl
    · exact .inr rfl
  rw [parseStringLiteral] at h
  split_ifs at h with htriple
  · have hboth : (nextChar lex).chr0=quoteOf lex∧(nextChar lex).chr1=quoteOf lex :=
      of_decide_eq_true htriple
    have hne := (ne_of_quote hquoteOf).1
    have h1 : (nextChar lex).chr0≠lexerEof := by
      rw [hboth.1]
      exact hne
    have h2 : (nextChar (nextChar lex)).chr0≠lexerEof := by
      rw [chr0_nextChar,hboth.2]
      exact hne
    have hopen := (hfirst.nextChar h1).nextChar h2
    obtain ⟨r,hr,heq⟩ := Option.map_eq_some_iff.mp h
    rw [←heq]
    exact hopen.trans ((reads_literalLoop _ _ (hopen.placed hplaced) r hr).trans
      (reads_closeLiteral _ _ _))
  · obtain ⟨r,hr,heq⟩ := Option.map_eq_some_iff.mp h
    rw [←heq]
    exact hfirst.trans ((reads_literalLoop _ _ (hfirst.placed hplaced) r hr).trans
      (reads_closeLiteral _ _ _))

/-- A kind of their own that characters give stays one. -/
theorem Reads.readKind (h : Reads lex lex') (hkind : ReadKind lex.tokKind) :
    ReadKind lex'.tokKind := by
  rcases h.kind with hsame | hown
  · rw [hsame]
    exact hkind
  · exact hown

/-- The kind of a literal is one of its own. -/
theorem readKind_typeCodes (lex : MpLexer) : ReadKind (typeCodes lex).2.1 := by
  rw [typeCodes]
  split_ifs
  all_goals first
    | exact .inr (.inr (.inr (.inl rfl)))
    | exact .inr (.inr (.inr (.inr rfl)))

/-- What begins a literal. -/
theorem string_cases (h : isStringOrBytes lex=true) : (lex.chr0=34∨lex.chr0=39)∨
      ((lex.chr0=114∨lex.chr0=117∨lex.chr0=98)∧(lex.chr1=34∨lex.chr1=39))∨
      ((lex.chr0=114∧lex.chr1=98∨lex.chr0=98∧lex.chr1=114)∧(lex.chr2=34∨lex.chr2=39)) := by
  rw [isStringOrBytes,isCharOr,isCharOr3,isCharFollowingOr,isCharAnd,isCharAnd,
    isCharFollowingFollowingOr,Bool.or_eq_true,Bool.or_eq_true,Bool.and_eq_true,Bool.and_eq_true,
    Bool.or_eq_true,decide_eq_true_iff,decide_eq_true_iff,decide_eq_true_iff,decide_eq_true_iff,
    decide_eq_true_iff,decide_eq_true_iff] at h
  rcases h with (h | h) | h
  · exact .inl h.symm
  · exact .inr (.inl ⟨h.1,h.2.symm⟩)
  · exact .inr (.inr ⟨h.1,h.2.symm⟩)

/-- The type codes are the letters in front of the first quote. -/
theorem typeCodes_count (h : isStringOrBytes lex=true) :
    ((typeCodes lex).2.2=0∧(lex.chr0=34∨lex.chr0=39))∨
      ((typeCodes lex).2.2=1∧lex.chr0≠lexerEof∧(lex.chr1=34∨lex.chr1=39))∨
      ((typeCodes lex).2.2=2∧lex.chr0≠lexerEof∧lex.chr1≠lexerEof∧(lex.chr2=34∨lex.chr2=39)) := by
  rw [typeCodes,isChar,isChar,isChar,isCharFollowing,isCharFollowing,lexerEof]
  rcases string_cases h with hquote | ⟨hletter,hquote⟩ | ⟨hletter | hletter,hquote⟩
  · have hnone : ¬lex.chr0=117∧¬lex.chr0=98∧¬lex.chr0=114 := by omega
    refine .inl ⟨?_,hquote⟩
    simp only [hnone.1,hnone.2.1,hnone.2.2,decide_false,Bool.false_eq_true,if_false]
  · have hne : ¬lex.chr1=114∧¬lex.chr1=98 := by omega
    refine .inr (.inl ⟨?_,by omega,hquote⟩)
    simp only [hne.1,hne.2,decide_false,Bool.false_eq_true,if_false]
    rcases hletter with h0 | h0 | h0
    · simp only [h0,decide_eq_true_eq,Nat.reduceEqDiff,if_false,if_true]
    · simp only [h0,decide_eq_true_eq,if_true]
    · simp only [h0,decide_eq_true_eq,Nat.reduceEqDiff,if_false,if_true]
  · refine .inr (.inr ⟨?_,by omega,by omega,hquote⟩)
    simp only [hletter.1,hletter.2,decide_eq_true_eq,Nat.reduceEqDiff,if_false,if_true]
  · refine .inr (.inr ⟨?_,by omega,by omega,hquote⟩)
    simp only [hletter.1,hletter.2,decide_eq_true_eq,Nat.reduceEqDiff,if_false,if_true]

/-- The type codes of a literal are read up to its first quote. -/
theorem reads_skipTypeCodes (h : isStringOrBytes lex=true) (kind : TokenKind)
    (hkind : ReadKind kind) :
    Reads lex (skipTypeCodes (typeCodes lex).2.2 {lex with tokKind := kind})∧
      ((skipTypeCodes (typeCodes lex).2.2 {lex with tokKind := kind}).chr0=34∨
        (skipTypeCodes (typeCodes lex).2.2 {lex with tokKind := kind}).chr0=39) := by
  have hset := reads_kind lex hkind
  rcases typeCodes_count h with ⟨hcount,hquote⟩ | ⟨hcount,hletter,hquote⟩ |
    ⟨hcount,hletter,hletter',hquote⟩
  · rw [hcount,skipTypeCodes,if_neg (by decide)]
    exact ⟨hset,hquote⟩
  · rw [hcount,skipTypeCodes,if_pos (by decide),if_neg (by decide),chr0_nextChar]
    exact ⟨hset.nextChar hletter,hquote⟩
  · have hplain : ({lex with tokKind := kind} : MpLexer).chr2≠13 := by
      rcases hquote with h2 | h2
      · exact fun hcr => absurd (h2.symm.trans hcr) (by decide)
      · exact fun hcr => absurd (h2.symm.trans hcr) (by decide)
    have h1 : (nextChar {lex with tokKind := kind}).chr0≠lexerEof := by
      rw [chr0_nextChar]
      exact hletter'
    rw [hcount,skipTypeCodes,if_pos (by decide),if_pos rfl,
      chr0_nextChar (nextChar {lex with tokKind := kind}),(nextChar_plain hplain).2.1]
    exact ⟨(hset.nextChar hletter).nextChar h1,hquote⟩

/-- A literal is read with its type codes and the white space after it. -/
theorem reads_literal (hplaced : Placed lex) (hstring : isStringOrBytes lex=true)
    (h : literal (typeCodes lex).2.1 lex=some lex') :
    Reads lex lex'∧ReadKind lex'.tokKind := by
  obtain ⟨lex2,hparse,heq⟩ := Option.map_eq_some_iff.mp h
  have hkind := readKind_typeCodes lex
  obtain ⟨hskip,hquote⟩ := reads_skipTypeCodes hstring _ hkind
  have hliteral := reads_parseStringLiteral (hskip.placed hplaced) hquote hparse
  have hspace : Reads lex2 lex' := by
    rw [←heq]
    exact steps_reads.skipWhitespaceLoop true false lex2
  refine ⟨hskip.trans (hliteral.trans hspace),?_⟩
  have hown : ReadKind (skipTypeCodes (typeCodes lex).2.2
      {lex with tokKind := (typeCodes lex).2.1}).tokKind := by
    rw [skipTypeCodes]
    split_ifs
    · rw [(sameToken_nextChar _).1.tokKind,(sameToken_nextChar _).1.tokKind]
      exact hkind
    · rw [(sameToken_nextChar _).1.tokKind]
      exact hkind
    · exact hkind
  exact hspace.readKind (hliteral.readKind hown)

/-- Literals in a row are read. -/
theorem reads_literals (lex : MpLexer) : Placed lex →
    (isStringOrBytes lex=true∧lex.tokKind=.end∨ReadKind lex.tokKind) → ∀ lex',
      literals lex=some lex' → Reads lex lex'∧ReadKind lex'.tokKind := by
  fun_induction literals lex with
  | case1 lex hstring hkind lex2 hliteral ih =>
    intro hplaced _ lex' h
    obtain ⟨hreads,hown⟩ := reads_literal hplaced hstring hliteral
    obtain ⟨hrest,hlast⟩ := ih (hreads.placed hplaced) (.inr hown) lex' h
    exact ⟨hreads.trans hrest,hlast⟩
  | case2 lex hstring hkind hliteral =>
    intro _ _ lex' h
    cases h
  | case3 lex hstring hkind =>
    intro _ hcase lex' h
    cases h
    rcases hcase with ⟨_,hend⟩ | hown
    · exact absurd (.inl hend) hkind
    · exact ⟨.refl lex,hown⟩
  | case4 lex hstring =>
    intro _ hcase lex' h
    cases h
    rcases hcase with ⟨hyes,_⟩ | hown
    · exact absurd hyes hstring
    · exact ⟨.refl lex,hown⟩

/-! ## Names, numbers and operators -/

/-- Kinds that have nothing to do with lines. -/
def PlainKind (kind : TokenKind) : Prop :=
  kind≠.end∧kind≠.newline∧kind≠.dedentMismatch∧kind≠.indent∧kind≠.dedent

/-- A token is read that has nothing to do with lines. -/
structure ReadsToken (lex lex' : MpLexer) : Prop where
  /-- The INDENT and DEDENT tokens to come. -/
  emitDent : lex'.emitDent=lex.emitDent
  nestedBracketLevel : lex'.nestedBracketLevel=lex.nestedBracketLevel+bracketChange lex'.tokKind
  indentLevel : lex'.indentLevel=lex.indentLevel
  tokColumn : lex'.tokColumn=lex.tokColumn
  placed : Placed lex → Placed lex'
  kind : PlainKind lex'.tokKind
  left_lt : left lex'<left lex

/-- A token of a kind that is no bracket. -/
theorem Reads.token (h : Reads lex lex') (hlt : left lex'<left lex)
    (hplain : PlainKind kind) (hchange : bracketChange kind=0) :
    ReadsToken lex {lex' with tokKind := kind} where
  emitDent := h.emitDent
  nestedBracketLevel := by
    rw [hchange,Int.add_zero]
    exact h.nestedBracketLevel
  indentLevel := h.indentLevel
  tokColumn := h.tokColumn
  placed hplaced :=
    ⟨(h.placed hplaced).column,(h.placed hplaced).last1,(h.placed hplaced).last2⟩
  kind := hplain
  left_lt := hlt

/-- Kinds that characters give. -/
theorem ReadKind.plain (h : ReadKind kind) : PlainKind kind∧bracketChange kind=0 := by
  rcases h with rfl | rfl | rfl | rfl | rfl
  all_goals exact ⟨⟨by decide,by decide,by decide,by decide,by decide⟩,rfl⟩

theorem reads_nameTail (lex : MpLexer) : Reads lex (nameTail lex) := by
  fun_induction nameTail lex with
  | case1 lex hend =>
    exact .refl lex
  | case2 lex hend htail ih =>
    have hadd : Reads lex (vstrAddByte lex lex.chr0) := reads_vstr lex _
    exact (hadd.nextChar (chr0_of_not_isEnd hend)).trans ih
  | case3 lex hend htail =>
    exact .refl lex

/-- A keyword is found in its table. -/
theorem findKeyword_mem {s : List UInt8} {kws : List (String×TokenKind)}
    (h : findKeyword s kws=some kind) : ∃ kw∈kws,kw.2=kind := by
  induction kws with
  | nil => cases h
  | cons kw kws ih =>
    rw [findKeyword] at h
    split at h
    · exact ⟨kw,mem_cons_self,Option.some.inj h⟩
    · cases h
    · obtain ⟨kw',hmem,hkind⟩ := ih h
      exact ⟨kw',mem_cons_of_mem _ hmem,hkind⟩

/-- A name or a keyword is read. -/
theorem reads_name (optimise : ℕ) (hend : ¬isEnd lex=true) :
    ReadsToken lex (name optimise lex) := by
  have hadd : Reads lex (vstrAddByte lex lex.chr0) := reads_vstr lex _
  have hfirst : left (nextChar (vstrAddByte lex lex.chr0))<left lex :=
    left_nextChar_same rfl rfl hend
  have hrest := reads_nameTail (nextChar (vstrAddByte lex lex.chr0))
  have htail := (hadd.nextChar (chr0_of_not_isEnd hend)).trans hrest
  have hlt := lt_of_le_of_lt hrest.left_le hfirst
  rw [name]
  split
  case h_1 kind hfound =>
    obtain ⟨kw,hmem,rfl⟩ := findKeyword_mem hfound
    have hall : ∀ kw∈tokKw,(keywordKind optimise kw.2≠.end∧keywordKind optimise kw.2≠.newline∧
        keywordKind optimise kw.2≠.dedentMismatch∧keywordKind optimise kw.2≠.indent∧
        keywordKind optimise kw.2≠.dedent)∧bracketChange (keywordKind optimise kw.2)=0 := by
      by_cases hoptimise : optimise=0
      · rw [hoptimise]
        decide
      · simp only [keywordKind,if_neg hoptimise]
        decide
    exact htail.token hlt (hall kw hmem).1 (hall kw hmem).2
  case h_2 => exact htail.token hlt ⟨by decide,by decide,by decide,by decide,by decide⟩ rfl

theorem reads_exponentSign (lex : MpLexer) : Reads lex (exponentSign lex) := by
  have hadd : Reads lex (vstrAddChar lex lex.chr0) := reads_vstr lex _
  rw [exponentSign]
  split_ifs with hsign
  · refine hadd.nextChar ?_
    rw [Bool.or_eq_true,isChar,isChar,decide_eq_true_iff,decide_eq_true_iff] at hsign
    change lex.chr0≠lexerEof
    rw [lexerEof]
    omega
  · exact .refl lex

/-- The tail of a number is read. -/
theorem reads_numberTail (forcedInteger : Bool) (lex : MpLexer) :
    Reads lex (numberTail forcedInteger lex) := by
  have hfloat (lex : MpLexer) : Reads lex {lex with tokKind := .floatOrImag} :=
    reads_kind lex (.inr (.inr (.inl rfl)))
  fun_induction numberTail forcedInteger lex with
  | case1 lex hend =>
    exact .refl lex
  | case2 lex hend hexp ih =>
    have hadd : Reads lex (vstrAddChar {lex with tokKind := .floatOrImag} 101) :=
      (hfloat lex).trans (reads_vstr _ _)
    exact ((hadd.nextChar (chr0_of_not_isEnd hend)).trans (reads_exponentSign _)).trans ih
  | case3 lex hend hexp hdigit ih =>
    refine Reads.trans ?_ ih
    split_ifs
    · have hadd : Reads lex (vstrAddChar {lex with tokKind := .floatOrImag} lex.chr0) :=
        (hfloat lex).trans (reads_vstr _ _)
      exact hadd.nextChar (chr0_of_not_isEnd hend)
    · have hadd : Reads lex (vstrAddChar lex lex.chr0) := reads_vstr _ _
      exact hadd.nextChar (chr0_of_not_isEnd hend)
  | case4 lex hend hexp hdigit =>
    exact .refl lex

/-- Literals in a row are a token. -/
theorem readsToken_literals (hplaced : Placed lex) (hstring : isStringOrBytes lex=true)
    (h : literals {lex with tokKind := .end}=some lex') : ReadsToken lex lex' := by
  have hplaced' : Placed {lex with tokKind := .end} :=
    ⟨hplaced.column,hplaced.last1,hplaced.last2⟩
  have hstring' : isStringOrBytes {lex with tokKind := .end}=true := hstring
  obtain ⟨hreads,hown⟩ := reads_literals _ hplaced' (.inl ⟨hstring',rfl⟩) lex' h
  obtain ⟨hplain,hchange⟩ := hown.plain
  refine ⟨hreads.emitDent,?_,hreads.indentLevel,hreads.tokColumn,
    fun _ => hreads.placed hplaced',hplain,?_⟩
  · rw [hchange,Int.add_zero]
    exact hreads.nestedBracketLevel
  · rw [literals,dif_pos hstring',if_pos (.inl rfl)] at h
    split at h
    case h_1 lex2 hliteral =>
      obtain ⟨hfirst,hkind⟩ := reads_literal hplaced' hstring' hliteral
      obtain ⟨hrest,_⟩ := reads_literals lex2 (hfirst.placed hplaced') (.inr hkind) lex' h
      exact lt_of_le_of_lt hrest.left_le
        (left_literal (not_isEnd_of_isStringOrBytes hstring') hliteral)
    case h_2 => cases h

/-- A number is read. -/
theorem reads_number (hend : ¬isEnd lex=true) : ReadsToken lex (number lex) := by
  have htail (kind : TokenKind) (hkind : kind=.integer∨kind=.floatOrImag) :
      ReadsToken lex (numberTail (!isChar lex 46&&(isChar lex 48&&isFollowingBaseChar lex))
        (nextChar (vstrAddChar {lex with tokKind := kind} lex.chr0))) := by
    have hend' : ¬isEnd (vstrAddChar {lex with tokKind := kind} lex.chr0)=true := hend
    have hfirst : left (nextChar (vstrAddChar {lex with tokKind := kind} lex.chr0))<left lex :=
      left_nextChar_same rfl rfl hend
    have hrest := reads_numberTail (!isChar lex 46&&(isChar lex 48&&isFollowingBaseChar lex))
      (nextChar (vstrAddChar {lex with tokKind := kind} lex.chr0))
    have hreads := (reads_nextChar (chr0_of_not_isEnd hend')).trans hrest
    have hplain : PlainKind kind∧bracketChange kind=0 := by
      rcases hkind with rfl | rfl
      all_goals exact ⟨⟨by decide,by decide,by decide,by decide,by decide⟩,rfl⟩
    have hown : PlainKind (numberTail (!isChar lex 46&&(isChar lex 48&&isFollowingBaseChar lex))
        (nextChar (vstrAddChar {lex with tokKind := kind} lex.chr0))).tokKind∧
        bracketChange (numberTail (!isChar lex 46&&(isChar lex 48&&isFollowingBaseChar lex))
          (nextChar (vstrAddChar {lex with tokKind := kind} lex.chr0))).tokKind=0 := by
      rcases hreads.kind with hsame | hread
      · rw [hsame]
        exact hplain
      · exact hread.plain
    refine ⟨hreads.emitDent,?_,hreads.indentLevel,hreads.tokColumn,
      fun hplaced => hreads.placed ?_,hown.1,lt_of_le_of_lt hrest.left_le hfirst⟩
    · rw [hown.2,Int.add_zero]
      exact hreads.nestedBracketLevel
    · exact ⟨hplaced.column,hplaced.last1,hplaced.last2⟩
  rw [number]
  split_ifs
  · exact htail .floatOrImag (.inr rfl)
  · exact htail .integer (.inl rfl)

/-- What is found in the encoding of the tokens is a part of it. -/
theorem findTokEnc_subset (lex : MpLexer) (l : List ℕ) (tokEncIndex : ℕ) :
    ∀ c∈(findTokEnc lex l tokEncIndex).1,c∈l := by
  fun_induction findTokEnc lex l tokEncIndex with
  | case1 => exact fun c hc => absurd hc not_mem_nil
  | case2 c tokEncIndex h =>
    exact fun _ hc => hc
  | case3 c tokEncIndex h =>
    exact fun _ hc => absurd hc not_mem_nil
  | case4 c d t tokEncIndex h =>
    exact fun _ hc => hc
  | case5 c d t tokEncIndex h hskip ih =>
    exact fun e he => .tail _ (.tail _ (ih e he))
  | case6 c d t tokEncIndex h hskip ih =>
    exact fun e he => .tail _ (ih e he)

/-- The rest of an operator is read. -/
theorem reads_longestToken (lex : MpLexer) (t : List ℕ) (tIndex tokEncIndex : ℕ) :
    (∀ d∈t,d≠lexerEof) → Reads lex (longestToken lex t tIndex tokEncIndex).1 := by
  have hnext {lex : MpLexer} {d : ℕ} (hne : d≠lexerEof) (hd : isChar lex d=true) :
      Reads lex (nextChar lex) := by
    refine reads_nextChar fun heof => hne ?_
    rw [←heof]
    exact (of_decide_eq_true hd).symm
  fun_induction longestToken lex t tIndex tokEncIndex with
  | case1 lex d t tIndex tokEncIndex hd hc =>
    intro hne
    exact hnext (hne d (.tail _ (.head _))) hd
  | case2 lex c d t tIndex tokEncIndex hc hd hother ih =>
    intro hne
    exact (hnext (hne d (.tail _ (.head _))) hd).trans (ih fun e he => hne e (.tail _ (.tail _ he)))
  | case3 lex d t tIndex tokEncIndex hd hc =>
    intro _
    exact .refl lex
  | case4 lex c d t tIndex tokEncIndex hc hd hother ih =>
    intro hne
    exact ih fun e he => hne e (.tail _ (.tail _ he))
  | case5 lex c d t tIndex tokEncIndex hc =>
    intro _
    exact .refl lex
  | case6 t lex tIndex tokEncIndex hshort =>
    intro _
    exact .refl _

/-- No operator has anything to do with lines. -/
theorem plainKind_tokEncKind (index : ℕ) : PlainKind (tokEncKind.getD index .invalid) := by
  have hall : ∀ kind∈tokEncKind,kind≠.end∧kind≠.newline∧kind≠.dedentMismatch∧kind≠.indent∧
      kind≠.dedent := by decide
  rw [getD_eq_getElem?_getD]
  cases h : tokEncKind[index]? with
  | none => exact ⟨by decide,by decide,by decide,by decide,by decide⟩
  | some kind => exact hall kind (mem_of_getElem? h)

/-- An operator is read, and a bracket changes the depth. -/
theorem reads_operator (hend : ¬isEnd lex=true) : ReadsToken lex (operator lex) := by
  have hfirst := reads_nextChar (chr0_of_not_isEnd hend)
  have hlt := left_nextChar_lt hend
  have hnoEof : ∀ d∈tokEnc,d≠lexerEof := by decide
  have hsubset := findTokEnc_subset lex tokEnc 0
  rw [operator]
  split
  · exact hfirst.token hlt ⟨by decide,by decide,by decide,by decide,by decide⟩ rfl
  · split_ifs with hequal
    · have hchr : (nextChar lex).chr0≠lexerEof := by
        rw [of_decide_eq_true hequal]
        decide
      exact (hfirst.nextChar hchr).token (lt_of_le_of_lt (left_nextChar_le _) hlt)
        ⟨by decide,by decide,by decide,by decide,by decide⟩ rfl
    · exact hfirst.token hlt ⟨by decide,by decide,by decide,by decide,by decide⟩ rfl
  · split_ifs with hdots
    · have hboth : (nextChar lex).chr0=46∧(nextChar lex).chr1=46 := of_decide_eq_true hdots
      have hchr : (nextChar lex).chr0≠lexerEof := by
        rw [hboth.1]
        decide
      have hchr' : (nextChar (nextChar lex)).chr0≠lexerEof := by
        rw [chr0_nextChar,hboth.2]
        decide
      exact ((hfirst.nextChar hchr).nextChar hchr').token
        (lt_of_le_of_lt (left_nextChar_le _) (lt_of_le_of_lt (left_nextChar_le _) hlt))
        ⟨by decide,by decide,by decide,by decide,by decide⟩ rfl
    · exact hfirst.token hlt ⟨by decide,by decide,by decide,by decide,by decide⟩ rfl
  · next c t tokEncIndex _ _ hfound =>
    rw [hfound] at hsubset
    have hlong := reads_longestToken (nextChar lex) t tokEncIndex tokEncIndex
      fun d hd => hnoEof d (hsubset d (.tail _ hd))
    have hreads := hfirst.trans hlong
    refine ⟨hreads.emitDent,?_,hreads.indentLevel,hreads.tokColumn,fun hplaced => ?_,
      plainKind_tokEncKind _,lt_of_le_of_lt hlong.left_le hlt⟩
    · exact congrArg (·+bracketChange _) hreads.nestedBracketLevel
    · exact ⟨(hreads.placed hplaced).column,(hreads.placed hplaced).last1,
        (hreads.placed hplaced).last2⟩

end MicroPython.Indentation
