import MicroPython.Indentation

/-!
# Blocks of lines

The tokens of a text in a row. What the INDENT and DEDENT tokens say about the blocks of lines
is kept apart from the lexer: a token fits to the tokens before it or it does not. All tokens
that the lexer gives fit.
-/

namespace MicroPython.LexerBlocks

open Nat List Lexer LexerStream LexerAdvance Indentation

variable {lex lex' : MpLexer} {optimise : ℕ}

/-! ## Where tokens begin -/

/-- White space is over. -/
def Stands (lex : MpLexer) : Prop :=
  isEnd lex=true∨(¬isPhysicalNewline lex=true∧¬isWhitespace lex=true∧¬isChar lex 35=true∧
    ¬isCharAnd lex 92 10=true)

/-- White space is skipped until it is over. -/
theorem stands_skipWhitespaceLoop (hadPhysicalNewline : Bool) (lex : MpLexer) :
    Stands (skipWhitespaceLoop false hadPhysicalNewline lex).2 := by
  fun_induction skipWhitespaceLoop false hadPhysicalNewline lex with
  | case1 had lex h =>
    exact .inl h
  | case2 had lex h hnewline hstop => cases hstop.1
  | case3 had lex h hnewline hstop ih =>
    exact ih
  | case4 had lex h hnewline hspace ih =>
    exact ih
  | case5 had lex h hnewline hspace hcomment ih =>
    exact ih
  | case6 had lex h hnewline hspace hcomment hcontinued ih =>
    exact ih
  | case7 had lex h hnewline hspace hcomment hcontinued =>
    exact .inr ⟨hnewline,hspace,hcomment,hcontinued⟩

/-- Where white space is over none is skipped. -/
theorem Stands.skip (h : Stands lex) (stopAtNewline had : Bool) :
    skipWhitespaceLoop stopAtNewline had lex=(had,lex) := by
  rw [skipWhitespaceLoop]
  split
  · rfl
  case isFalse hend =>
    obtain ⟨hnewline,hspace,hcomment,hcontinued⟩ := h.resolve_left hend
    rw [if_neg hnewline,if_neg hspace,if_neg hcomment,if_neg hcontinued]

/-- When there was a new line, there is less left. -/
theorem left_lt_of_newline (lex : MpLexer) (h : (skipWhitespaceLoop false false lex).1=true) :
    left (skipWhitespaceLoop false false lex).2<left lex := by
  have hall (had : Bool) (lex : MpLexer) : (skipWhitespaceLoop false had lex).1=true →
      had=false → left (skipWhitespaceLoop false had lex).2<left lex := by
    fun_induction skipWhitespaceLoop false had lex with
    | case1 had lex h =>
      intro htrue hfalse
      rw [hfalse] at htrue
      cases htrue
    | case2 had lex h hnewline hstop => cases hstop.1
    | case3 had lex h hnewline hstop ih =>
      exact fun _ _ => lt_of_le_of_lt (steps_left.skipWhitespaceLoop _ _ _) (left_nextChar_lt h)
    | case4 had lex h hnewline hspace ih =>
      exact fun htrue hfalse => lt_trans (ih htrue hfalse) (left_nextChar_lt h)
    | case5 had lex h hnewline hspace hcomment ih =>
      exact fun htrue hfalse => lt_trans (ih htrue hfalse)
        (lt_of_le_of_lt (steps_left.skipComment _) (left_nextChar_lt h))
    | case6 had lex h hnewline hspace hcomment hcontinued ih =>
      exact fun htrue hfalse => lt_trans (ih htrue hfalse)
        (lt_of_le_of_lt (left_nextChar_le _) (left_nextChar_lt h))
    | case7 had lex h hnewline hspace hcomment hcontinued =>
      intro htrue hfalse
      rw [hfalse] at htrue
      cases htrue
  exact hall false lex h rfl

/-- The lexer where the next token begins. -/
def begun (lex : MpLexer) : MpLexer := {tokenStart lex with
  tokLine := (tokenStart lex).line
  tokColumn := (tokenStart lex).column}

/-- There was a new line before the next token. -/
def afterNewline (lex : MpLexer) : Bool := (skipWhitespace {lex with vstr := []} false).1

/-- White space is over where a token begins. -/
theorem stands_begun (lex : MpLexer) : Stands (begun lex) :=
  stands_skipWhitespaceLoop false {lex with vstr := []}

/-- What stays up to where a token begins. -/
theorem begun_fields (lex : MpLexer) : (begun lex).emitDent=lex.emitDent∧
    (begun lex).nestedBracketLevel=lex.nestedBracketLevel∧
    (begun lex).indentLevel=lex.indentLevel∧(begun lex).tokColumn=(begun lex).column∧
    (Placed lex → Placed (begun lex))∧left (begun lex)≤left lex := by
  have hreads : Reads lex (tokenStart lex) :=
    (reads_vstr lex []).trans (steps_reads.skipWhitespaceLoop false false _)
  refine ⟨hreads.emitDent,hreads.nestedBracketLevel,hreads.indentLevel,rfl,fun h => ?_,
    hreads.left_le⟩
  exact ⟨(hreads.placed h).column,(hreads.placed h).last1,(hreads.placed h).last2⟩

/-- A token where white space is over begins there. -/
theorem begun_of_stands (h : Stands lex) :
    afterNewline lex=false∧(begun lex).column=lex.column∧(isEnd (begun lex)=isEnd lex) := by
  have hstands : Stands {lex with vstr := []} := h
  have hskip : skipWhitespace {lex with vstr := []} false=(false,{lex with vstr := []}) :=
    hstands.skip false false
  rw [afterNewline,begun,tokenStart,hskip]
  exact ⟨rfl,rfl,rfl⟩

/-- The kinds of tokens that a call gives. -/
inductive Next (lex lex' : MpLexer) : Prop
  | dedent (hdent : lex.emitDent<0) (heq : lex'={begun lex with
      tokKind := .dedent
      emitDent := (begun lex).emitDent+1})
  | indent (hdent : 0<lex.emitDent) (heq : lex'={begun lex with
      tokKind := .indent
      emitDent := (begun lex).emitDent-1})
  | newline (hdent : lex.emitDent=0) (hnewline : afterNewline lex=true)
      (hlevel : lex.nestedBracketLevel=0) (heq : lex'=newline (begun lex))
  | stop (hdent : lex.emitDent=0)
      (hline : ¬(afterNewline lex=true∧lex.nestedBracketLevel=0)) (hend : isEnd (begun lex)=true)
      (heq : lex'={begun lex with tokKind := .end})
  | token (hdent : lex.emitDent=0) (hline : ¬(afterNewline lex=true∧lex.nestedBracketLevel=0))
      (htoken : ReadsToken (begun lex) lex')

/-- What a call of `mp_lexer_to_next` gives. -/
theorem next_of_mpLexerToNext (hplaced : Placed lex)
    (h : mpLexerToNext optimise lex=some lex') : Next lex lex' := by
  obtain ⟨hdent,hlevel,_,_,hbegun,_⟩ := begun_fields lex
  have hplaced' := hbegun hplaced
  have hcall : (if (begun lex).emitDent<0 then some {begun lex with
        tokKind := TokenKind.dedent
        emitDent := (begun lex).emitDent+1}
      else if 0<(begun lex).emitDent then some {begun lex with
        tokKind := TokenKind.indent
        emitDent := (begun lex).emitDent-1}
      else if afterNewline lex=true∧(begun lex).nestedBracketLevel=0 then
        some (newline (begun lex))
      else if isEnd (begun lex) then some {begun lex with tokKind := TokenKind.end}
      else if isStringOrBytes (begun lex) then literals {begun lex with tokKind := .end}
      else if isHeadOfIdentifier (begun lex) then some (name optimise (begun lex))
      else if isDigit (begun lex)||(isChar (begun lex) 46&&isFollowingDigit (begun lex)) then
        some (number (begun lex))
      else some (operator (begun lex)))=some lex' := h
  rw [hlevel] at hcall
  split_ifs at hcall with hdedent hindent hnewline hend hstring hhead hdigit
  · exact .dedent (hdent ▸ hdedent) (Option.some.inj hcall).symm
  · exact .indent (hdent ▸ hindent) (Option.some.inj hcall).symm
  · exact .newline (by omega) hnewline.1 hnewline.2 (Option.some.inj hcall).symm
  · exact .stop (by omega) hnewline hend (Option.some.inj hcall).symm
  · exact .token (by omega) hnewline (readsToken_literals hplaced' hstring hcall)
  · rw [←Option.some.inj hcall]
    exact .token (by omega) hnewline (reads_name optimise hend)
  · rw [←Option.some.inj hcall]
    exact .token (by omega) hnewline (reads_number hend)
  · rw [←Option.some.inj hcall]
    exact .token (by omega) hnewline (reads_operator hend)

/-! ## Tokens that fit -/

/-- What the tokens so far say about blocks. -/
structure Blocks where
  /-- The columns of the blocks that are open in the outermost one, the innermost first. The
  outermost one is in column zero. -/
  columns : List ℕ
  /-- How many more brackets have been opened than closed. -/
  depth : ℤ
  /-- At the beginning of a line, whether that is a mismatch. -/
  line : Option Bool

/-- The column of the innermost block. -/
def Blocks.enclosing (b : Blocks) : ℕ := b.columns.headD 0

/-- A block that is open is in the column. -/
def Blocks.HasColumn (b : Blocks) (column : ℕ) : Prop := column=0∨column∈b.columns

/-- A token fits to the tokens before it: lines and blocks begin and end outside brackets only.
An INDENT is in a line that is deeper than the innermost block. A DEDENT ends a block that is
deeper than its line, which is in the column of a block or a mismatch. At the end after a new
line no block is open. Any other token at the beginning of a line that is no mismatch is in the
column of the innermost block. -/
def Blocks.Fits (b : Blocks) (column : ℕ) : TokenKind→Prop
  | .newline => b.depth=0
  | .dedentMismatch => b.depth=0
  | .indent => (b.depth=0∧b.line=some false)∧b.enclosing<column
  | .dedent => (b.depth=0∧b.line≠none)∧column<b.enclosing∧(b.line=some true↔¬b.HasColumn column)
  | .end => b.line≠none → b.columns=[]
  | _ => b.line=some false → column=b.enclosing

/-- What is known after a token. -/
def Blocks.next (b : Blocks) (column : ℕ) : TokenKind→Blocks
  | .newline => {b with line := some false}
  | .dedentMismatch => {b with line := some true}
  | .indent => {b with columns := column::b.columns}
  | .dedent => {b with columns := b.columns.tail}
  | .end => b
  | kind => {b with
      depth := b.depth+bracketChange kind
      line := none}

/-- The column of a token, counted from zero. -/
def tokenColumn (lex : MpLexer) : ℕ := (lex.tokColumn-1).toNat

/-- Tokens in a row fit. -/
def Blocks.FitAll : Blocks→List MpLexer→Prop
  | _,[] => True
  | b,lex::lexers =>
    b.Fits (tokenColumn lex) lex.tokKind∧(b.next (tokenColumn lex) lex.tokKind).FitAll lexers

/-- Before the first token. -/
def Blocks.start : Blocks := ⟨[],0,none⟩

/-- Calls of `mp_lexer_to_next` in a row, with the lexer after each. -/
inductive Calls (optimise : ℕ) : MpLexer→List MpLexer→Prop
  | nil (lex : MpLexer) : Calls optimise lex []
  | cons {lex lex' : MpLexer} {lexers : List MpLexer}
      (h : mpLexerToNext optimise lex=some lex') (hrest : Calls optimise lex' lexers) :
      Calls optimise lex (lex'::lexers)

/-! ## What the lexer knows -/

variable {b : Blocks}

/-- Where the lexer stands in a line, counted from zero. -/
def lineColumn (lex : MpLexer) : ℕ := (lex.column-1).toNat

/-- An INDENT is to come in a line that is deeper than the innermost block. -/
structure Opening (lex : MpLexer) (b : Blocks) : Prop where
  /-- One INDENT is to come. -/
  emitDent : lex.emitDent=1
  line : b.line=some false
  indentLevel : lex.indentLevel=lineColumn lex::(b.columns++[0])
  deeper : b.enclosing<lineColumn lex

/-- DEDENT tokens are to come, or no more of them. -/
structure Closing (lex : MpLexer) (b : Blocks) (k : ℕ) : Prop where
  /-- They are to come. -/
  emitDent : lex.emitDent=-(k : ℤ)
  /-- There are as many blocks. -/
  le : k≤b.columns.length
  indentLevel : lex.indentLevel=b.columns.drop k++[0]
  deeper : ∀ d∈b.columns.take k,lineColumn lex<d
  /-- The next one is not. -/
  top : (b.columns.drop k).headD 0≤lineColumn lex
  /-- It is at the beginning of a line, which is in the column of that one or a mismatch. -/
  line : b.line=some (decide (lineColumn lex≠(b.columns.drop k).headD 0))

/-- What the tokens so far say is what the lexer knows. -/
structure Knows (lex : MpLexer) (b : Blocks) : Prop where
  placed : Placed lex
  depth : lex.nestedBracketLevel=b.depth
  /-- A block is deeper than the one around it. -/
  sorted : b.columns.Pairwise (·>·)
  /-- A block is deeper than the outermost one. -/
  pos : ∀ d∈b.columns,0<d
  /-- The lexer is within a line, or at the beginning of one. -/
  state : (lex.emitDent=0∧b.line=none∧lex.indentLevel=b.columns++[0])∨
    (Stands lex∧b.depth=0∧(Opening lex b∨∃ k,Closing lex b k))

variable {column : ℕ} {lexer : MpLexer}

/-- The column of the innermost block bounds all of them. -/
theorem Knows.lt (h : Knows lex b) (hlt : b.enclosing<column) : ∀ d∈b.columns,d<column := by
  have hsorted := h.sorted
  rw [Blocks.enclosing] at hlt
  cases hcolumns : b.columns with
  | nil => exact fun d hd => absurd hd not_mem_nil
  | cons c cs =>
    rw [hcolumns] at hsorted hlt
    intro d hd
    cases mem_cons.mp hd with
    | inl hd =>
      rw [hd]
      exact hlt
    | inr hd => exact lt_trans ((pairwise_cons.mp hsorted).1 d hd) hlt

/-- A line is in the column of a block when it is in that of the innermost one that is not
deeper. -/
theorem Knows.hasColumn_iff (h : Knows lex b) {k : ℕ}
    (hdeeper : ∀ d∈b.columns.take k,column<d) (htop : (b.columns.drop k).headD 0≤column) :
    b.HasColumn column↔column=(b.columns.drop k).headD 0 := by
  have hsplit : b.columns=b.columns.take k++b.columns.drop k :=
    (take_append_drop k b.columns).symm
  have hsorted := h.sorted.sublist (drop_sublist k b.columns)
  rw [Blocks.HasColumn]
  cases hdrop : b.columns.drop k with
  | nil =>
    rw [hdrop,append_nil] at hsplit
    rw [headD_nil]
    refine ⟨fun hcolumn => hcolumn.resolve_right fun hmem => ?_,.inl⟩
    rw [hsplit] at hmem
    exact lt_irrefl _ (hdeeper _ hmem)
  | cons c cs =>
    rw [hdrop] at hsorted htop
    rw [hdrop] at hsplit
    rw [headD_cons] at htop ⊢
    have hmem : c∈b.columns := by
      rw [hsplit]
      exact mem_append_right _ mem_cons_self
    refine ⟨fun hcolumn => ?_,fun heq => .inr (heq ▸ hmem)⟩
    rcases hcolumn with hzero | hin
    · omega
    · rw [hsplit] at hin
      cases mem_append.mp hin with
      | inl htake => exact absurd (hdeeper _ htake) (lt_irrefl _)
      | inr hin =>
        cases mem_cons.mp hin with
        | inl heq => exact heq
        | inr hin =>
          have hlt := (pairwise_cons.mp hsorted).1 _ hin
          exact absurd htop (Nat.not_le_of_lt hlt)

/-- The levels above the indentation are popped. -/
theorem popIndents_spec (numSpaces : ℕ) (columns : List ℕ) (emitDent : ℤ) :
    ∃ k,k≤columns.length∧
      popIndents numSpaces (columns++[0]) emitDent=(columns.drop k++[0],emitDent-k)∧
      (∀ d∈columns.take k,numSpaces<d)∧(columns.drop k).headD 0≤numSpaces := by
  induction columns generalizing emitDent with
  | nil =>
    refine ⟨0,le_refl _,?_,fun d hd => absurd hd not_mem_nil,zero_le _⟩
    rw [nil_append,popIndents,if_neg (not_lt_zero _)]
    exact congrArg (Prod.mk [0]) (Int.sub_zero _).symm
  | cons d columns ih =>
    rw [cons_append,popIndents]
    split
    case isTrue hlt =>
      obtain ⟨k,hk,hpop,hdeeper,htop⟩ := ih (emitDent-1)
      refine ⟨k+1,succ_le_succ hk,?_,fun e he => ?_,htop⟩
      · rw [hpop,drop_succ_cons,cast_succ,Int.sub_sub,Int.add_comm 1]
      · rw [take_succ_cons] at he
        cases mem_cons.mp he with
        | inl he =>
          rw [he]
          exact hlt
        | inr he => exact hdeeper e he
    case isFalse hlt =>
      refine ⟨0,zero_le _,?_,fun e he => absurd he not_mem_nil,not_lt.mp hlt⟩
      exact congrArg (Prod.mk (d::(columns++[0]))) (Int.sub_zero _).symm

/-- A kind that has nothing to do with lines fits in the column of the innermost block. -/
theorem Blocks.fits_plain (b : Blocks) {kind : TokenKind} (hkind : PlainKind kind)
    (h : b.line=some false → column=b.enclosing) : b.Fits column kind := by
  obtain ⟨h₁,h₂,h₃,h₄,h₅⟩ := hkind
  cases kind
  all_goals first
    | exact h
    | exact absurd rfl h₁
    | exact absurd rfl h₂
    | exact absurd rfl h₃
    | exact absurd rfl h₄
    | exact absurd rfl h₅

/-- What is known after a token of such a kind. -/
theorem Blocks.next_plain (b : Blocks) {kind : TokenKind} (hkind : PlainKind kind)
    (column : ℕ) : b.next column kind={b with
      depth := b.depth+bracketChange kind
      line := none} := by
  obtain ⟨h₁,h₂,h₃,h₄,h₅⟩ := hkind
  cases kind
  all_goals first
    | rfl
    | exact absurd rfl h₁
    | exact absurd rfl h₂
    | exact absurd rfl h₃
    | exact absurd rfl h₄
    | exact absurd rfl h₅

theorem Knows.within (h : Knows lex b) (hnewline : afterNewline lex=true) :
    b.line=none∧lex.indentLevel=b.columns++[0] := by
  rcases h.state with hstate | ⟨hstands,_⟩
  · exact hstate.2
  · rw [(begun_of_stands hstands).1] at hnewline
    cases hnewline

theorem lineColumn_begun (hstands : Stands lex) : lineColumn (begun lex)=lineColumn lex := by
  rw [lineColumn,(begun_of_stands hstands).2.1]
  rfl

/-- A new line has the column of what comes after it. -/
theorem tokenColumn_newline (lex : MpLexer) :
    tokenColumn (newline (begun lex))=lineColumn (begun lex) := by
  have hsame : (newline (begun lex)).tokColumn=(begun lex).column := by
    rw [newline]
    dsimp only
    split_ifs
    · rfl
    · rfl
    · rfl
    · rfl
  rw [tokenColumn,hsame]
  rfl

/-- A new line fits, and the lexer knows what it brings. -/
theorem Knows.newline (h : Knows lex b) (hdent : lex.emitDent=0)
    (hnewline : afterNewline lex=true) (hlevel : lex.nestedBracketLevel=0)
    (hshallow : (newline (begun lex)).tokKind=.newline → tokenColumn (newline (begun lex))<2^16) :
    b.Fits (tokenColumn (newline (begun lex))) (newline (begun lex)).tokKind∧
      Knows (newline (begun lex))
        (b.next (tokenColumn (newline (begun lex))) (newline (begun lex)).tokKind) := by
  obtain ⟨hemit,hnested,hindent,_,hbegun,_⟩ := begun_fields lex
  have hplaced := hbegun h.placed
  have hstands := stands_begun lex
  obtain ⟨_,hlevels⟩ := h.within hnewline
  rw [hdent] at hemit
  rw [hlevels] at hindent
  rw [hlevel] at hnested
  have hdepth : b.depth=0 := h.depth.symm.trans hlevel
  have htop : indentTop (begun lex)=b.enclosing := by
    rw [indentTop,hindent,Blocks.enclosing]
    cases b.columns <;> rfl
  have hnum : ((begun lex).column-1).toNat=lineColumn (begun lex) := rfl
  rw [tokenColumn_newline] at hshallow ⊢
  generalize begun lex=start at *
  have hknows (lexer : MpLexer) (b' : Blocks) (hlexer : lexer.chr0=start.chr0∧
      lexer.chr1=start.chr1∧lexer.chr2=start.chr2∧lexer.column=start.column∧
      lexer.nestedBracketLevel=start.nestedBracketLevel) (hb : b'.columns=b.columns∧
      b'.depth=b.depth) (hcase : Opening lexer b'∨∃ k,Closing lexer b' k) : Knows lexer b' := by
    obtain ⟨h0,h1,h2,hcol,hlvl⟩ := hlexer
    refine ⟨⟨?_,?_,?_⟩,?_,?_,?_,.inr ⟨?_,hb.2.trans hdepth,hcase⟩⟩
    · rw [h0,hcol]
      exact hplaced.column
    · rw [h0,h1]
      exact hplaced.last1
    · rw [h1,h2]
      exact hplaced.last2
    · rw [hlvl,hnested,hb.2,hdepth]
    · rw [hb.1]
      exact h.sorted
    · rw [hb.1]
      exact h.pos
    · rw [Stands,isEnd,isPhysicalNewline,isWhitespace,isChar,isCharAnd,h0,h1]
      exact hstands
  rw [Lexer.newline]
  rw [hnum,htop]
  split
  case isTrue heq =>
    refine ⟨hdepth,hknows _ _ ⟨rfl,rfl,rfl,rfl,rfl⟩ ⟨rfl,rfl⟩ (.inr ⟨0,?_⟩)⟩
    refine ⟨hemit,zero_le _,hindent,fun d hd => absurd hd not_mem_nil,?_,?_⟩
    · exact le_of_eq heq.symm
    · exact congrArg some (decide_eq_false (not_not.mpr heq)).symm
  case isFalse hne =>
    split
    case isTrue hlt =>
      refine ⟨hdepth,hknows _ _ ⟨rfl,rfl,rfl,rfl,rfl⟩ ⟨rfl,rfl⟩ (.inl ?_)⟩
      refine ⟨congrArg (·+1) hemit,rfl,?_,hlt⟩
      have hkind : (Lexer.newline start).tokKind=.newline := by
        rw [Lexer.newline]
        rw [hnum,htop,if_neg hne,if_pos hlt]
      change lineColumn start%2^16::start.indentLevel=lineColumn start::(b.columns++[0])
      rw [mod_eq_of_lt (hshallow hkind),hindent]
    case isFalse hge =>
      obtain ⟨k,hk,hpop,hdeeper,hnext⟩ :=
        popIndents_spec (lineColumn start) b.columns start.emitDent
      rw [hindent,hpop]
      have hhead : (b.columns.drop k++[0]).headD 0=(b.columns.drop k).headD 0 := by
        cases b.columns.drop k <;> rfl
      dsimp only
      rw [hhead]
      have hclosing (lexer : MpLexer) (b' : Blocks) (hcol : lexer.column=start.column)
          (hdent' : lexer.emitDent=start.emitDent-k)
          (hlevels' : lexer.indentLevel=b.columns.drop k++[0]) (hcolumns : b'.columns=b.columns)
          (hline : b'.line=some (decide
            (lineColumn start≠(b.columns.drop k).headD 0))) : Closing lexer b' k := by
        have hsame : lineColumn lexer=lineColumn start := by
          rw [lineColumn,hcol]
          rfl
        refine ⟨?_,?_,?_,?_,?_,?_⟩
        · rw [hdent',hemit,Int.zero_sub]
        · rw [hcolumns]
          exact hk
        · rw [hcolumns]
          exact hlevels'
        · rw [hcolumns,hsame]
          exact hdeeper
        · rw [hcolumns,hsame]
          exact hnext
        · rw [hcolumns,hsame]
          exact hline
      by_cases hmismatch : lineColumn start≠(b.columns.drop k).headD 0
      · rw [if_pos hmismatch]
        refine ⟨hdepth,hknows _ _ ⟨rfl,rfl,rfl,rfl,rfl⟩ ⟨rfl,rfl⟩ (.inr ⟨k,?_⟩)⟩
        exact hclosing _ _ rfl rfl rfl rfl (congrArg some (decide_eq_true hmismatch).symm)
      · rw [if_neg hmismatch]
        refine ⟨hdepth,hknows _ _ ⟨rfl,rfl,rfl,rfl,rfl⟩ ⟨rfl,rfl⟩ (.inr ⟨k,?_⟩)⟩
        exact hclosing _ _ rfl rfl rfl rfl (congrArg some (decide_eq_false hmismatch).symm)

/-- An INDENT that was to come fits. -/
theorem Knows.indent (h : Knows lex b) (hstands : Stands lex) (hdepth : b.depth=0)
    (hopening : Opening lex b) (hlexer : lexer={begun lex with
      tokKind := .indent
      emitDent := (begun lex).emitDent-1}) :
    b.Fits (tokenColumn lexer) lexer.tokKind∧
      Knows lexer (b.next (tokenColumn lexer) lexer.tokKind) := by
  obtain ⟨hemit,hnested,hindent,hcolumn,hbegun,_⟩ := begun_fields lex
  have hplaced := hbegun h.placed
  have hlineColumn := lineColumn_begun hstands
  have htoken : tokenColumn lexer=lineColumn lex := by
    rw [hlexer,←hlineColumn,tokenColumn,hcolumn]
    rfl
  have hline : lineColumn lexer=lineColumn lex := by
    rw [hlexer]
    exact hlineColumn
  rw [htoken]
  subst hlexer
  refine ⟨⟨⟨hdepth,hopening.line⟩,hopening.deeper⟩,
    ⟨⟨hplaced.column,hplaced.last1,hplaced.last2⟩,hnested.trans h.depth,?_,?_,
      .inr ⟨stands_begun lex,hdepth,.inr ⟨0,?_⟩⟩⟩⟩
  · exact pairwise_cons.mpr ⟨h.lt hopening.deeper,h.sorted⟩
  · exact forall_mem_cons.mpr ⟨zero_lt_of_lt hopening.deeper,h.pos⟩
  · refine ⟨?_,zero_le _,hindent.trans hopening.indentLevel,
      fun d hd => absurd hd not_mem_nil,?_,?_⟩
    · exact congrArg (·-1) (hemit.trans hopening.emitDent)
    · rw [hline]
      exact le_refl _
    · rw [hline]
      refine hopening.line.trans (congrArg some (decide_eq_false ?_).symm)
      exact not_not.mpr rfl

/-- A DEDENT that was to come fits. -/
theorem Knows.dedent (h : Knows lex b) (hstands : Stands lex) (hdepth : b.depth=0) {k : ℕ}
    (hclosing : Closing lex b (k+1)) (hlexer : lexer={begun lex with
      tokKind := .dedent
      emitDent := (begun lex).emitDent+1}) :
    b.Fits (tokenColumn lexer) lexer.tokKind∧
      Knows lexer (b.next (tokenColumn lexer) lexer.tokKind) := by
  obtain ⟨hemit,hnested,hindent,hcolumn,hbegun,_⟩ := begun_fields lex
  have hplaced := hbegun h.placed
  have hlineColumn := lineColumn_begun hstands
  have htoken : tokenColumn lexer=lineColumn lex := by
    rw [hlexer,←hlineColumn,tokenColumn,hcolumn]
    rfl
  have hline : lineColumn lexer=lineColumn lex := by
    rw [hlexer]
    exact hlineColumn
  have hiff := h.hasColumn_iff hclosing.deeper hclosing.top
  rw [htoken]
  subst hlexer
  obtain ⟨columns,depth,line⟩ := b
  cases columns with
  | nil => exact absurd hclosing.le (not_succ_le_zero k)
  | cons d columns =>
    refine ⟨⟨⟨hdepth,?_⟩,hclosing.deeper d mem_cons_self,?_⟩,
      ⟨⟨hplaced.column,hplaced.last1,hplaced.last2⟩,hnested.trans h.depth,
        (pairwise_cons.mp h.sorted).2,fun e he => h.pos e (mem_cons_of_mem _ he),
        .inr ⟨stands_begun lex,hdepth,.inr ⟨k,?_⟩⟩⟩⟩
    · rw [hclosing.line]
      exact Option.some_ne_none _
    · rw [hclosing.line,Option.some_inj,decide_eq_true_iff,hiff]
    · refine ⟨?_,le_of_succ_le_succ hclosing.le,hindent.trans hclosing.indentLevel,?_,?_,?_⟩
      · change (begun lex).emitDent+1=-(k : ℤ)
        rw [hemit,hclosing.emitDent,cast_succ]
        omega
      · rw [hline]
        exact fun e he => hclosing.deeper e (mem_cons_of_mem _ he)
      · rw [hline]
        exact hclosing.top
      · rw [hline]
        exact hclosing.line

/-- The end fits. -/
theorem Knows.stop (h : Knows lex b) (hdent : lex.emitDent=0) (hend : isEnd (begun lex)=true)
    (hlexer : lexer={begun lex with tokKind := .end}) :
    b.Fits (tokenColumn lexer) lexer.tokKind∧
      Knows lexer (b.next (tokenColumn lexer) lexer.tokKind) := by
  obtain ⟨hemit,hnested,hindent,hcolumn,hbegun,_⟩ := begun_fields lex
  have hplaced := hbegun h.placed
  subst hlexer
  rcases h.state with ⟨_,hline,hlevels⟩ | ⟨hstands,hdepth,hopening | ⟨k,hclosing⟩⟩
  · exact ⟨fun hne => absurd hline hne,⟨⟨hplaced.column,hplaced.last1,hplaced.last2⟩,
      hnested.trans h.depth,h.sorted,h.pos,.inl ⟨hemit.trans hdent,hline,hindent.trans hlevels⟩⟩⟩
  · rw [hopening.emitDent] at hdent
    exact absurd hdent (by decide)
  · have hzero : k=0 := by
      have hk := hclosing.emitDent
      omega
    subst hzero
    have hline : lineColumn {begun lex with tokKind := .end}=lineColumn lex :=
      lineColumn_begun hstands
    have hfirst : lineColumn lex=0 := by
      rw [←hline,lineColumn]
      rw [hplaced.column (of_decide_eq_true hend)]
      rfl
    have hcolumns : b.columns=[] := by
      have htop := hclosing.top
      rw [hfirst,drop_zero] at htop
      have hpos := h.pos
      cases hcolumns : b.columns with
      | nil => rfl
      | cons d columns =>
        rw [hcolumns] at htop hpos
        exact absurd htop (Nat.not_le_of_lt (hpos d mem_cons_self))
    refine ⟨fun _ => hcolumns,⟨⟨hplaced.column,hplaced.last1,hplaced.last2⟩,
      hnested.trans h.depth,h.sorted,h.pos,.inr ⟨stands_begun lex,hdepth,.inr ⟨0,?_⟩⟩⟩⟩
    refine ⟨hemit.trans hclosing.emitDent,hclosing.le,hindent.trans hclosing.indentLevel,
      fun d hd => absurd hd not_mem_nil,?_,?_⟩
    · rw [hline]
      exact hclosing.top
    · rw [hline]
      exact hclosing.line

/-- Another token fits. -/
theorem Knows.token (h : Knows lex b) (hdent : lex.emitDent=0)
    (htoken : ReadsToken (begun lex) lexer) :
    b.Fits (tokenColumn lexer) lexer.tokKind∧
      Knows lexer (b.next (tokenColumn lexer) lexer.tokKind) := by
  obtain ⟨hemit,hnested,hindent,hcolumn,hbegun,_⟩ := begun_fields lex
  have hlevels : lex.indentLevel=b.columns++[0]∧
      (b.line=some false → tokenColumn lexer=b.enclosing) := by
    rcases h.state with ⟨_,hline,hlevels⟩ | ⟨hstands,_,hopening | ⟨k,hclosing⟩⟩
    · refine ⟨hlevels,fun hsome => ?_⟩
      rw [hline] at hsome
      cases hsome
    · rw [hopening.emitDent] at hdent
      exact absurd hdent (by decide)
    · have hzero : k=0 := by
        have hk := hclosing.emitDent
        omega
      subst hzero
      refine ⟨hclosing.indentLevel,fun hsome => ?_⟩
      have hsame : tokenColumn lexer=lineColumn lex := by
        rw [tokenColumn,htoken.tokColumn,hcolumn]
        exact lineColumn_begun hstands
      rw [hclosing.line,Option.some_inj,decide_eq_false_iff_not,not_not] at hsome
      rw [hsame]
      exact hsome
  rw [b.next_plain htoken.kind]
  refine ⟨b.fits_plain htoken.kind hlevels.2,⟨htoken.placed (hbegun h.placed),?_,h.sorted,h.pos,
    .inl ⟨?_,rfl,?_⟩⟩⟩
  · rw [htoken.nestedBracketLevel,hnested,h.depth]
  · rw [htoken.emitDent,hemit,hdent]
  · rw [htoken.indentLevel,hindent]
    exact hlevels.1

/-- The next token fits, and what it says is what the lexer knows then. -/
theorem Knows.next (h : Knows lex b) (hcall : mpLexerToNext optimise lex=some lex')
    (hshallow : lex'.tokKind=.newline → tokenColumn lex'<2^16) :
    b.Fits (tokenColumn lex') lex'.tokKind∧Knows lex' (b.next (tokenColumn lex') lex'.tokKind) := by
  cases next_of_mpLexerToNext h.placed hcall with
  | dedent hdent heq =>
    rcases h.state with ⟨hzero,_⟩ | ⟨hstands,hdepth,hopening | ⟨k,hclosing⟩⟩
    · omega
    · rw [hopening.emitDent] at hdent
      exact absurd hdent (by decide)
    · cases k with
      | zero =>
        rw [hclosing.emitDent] at hdent
        exact absurd hdent (by decide)
      | succ k => exact h.dedent hstands hdepth hclosing heq
  | indent hdent heq =>
    rcases h.state with ⟨hzero,_⟩ | ⟨hstands,hdepth,hopening | ⟨k,hclosing⟩⟩
    · omega
    · exact h.indent hstands hdepth hopening heq
    · rw [hclosing.emitDent] at hdent
      omega
  | newline hdent hnewline hlevel heq =>
    rw [heq] at hshallow ⊢
    exact h.newline hdent hnewline hlevel hshallow
  | stop hdent _ hend heq => exact h.stop hdent hend heq
  | token hdent _ htoken => exact h.token hdent htoken

/-! ## All tokens -/

/-- At the beginning of a text the lexer knows that there is nothing. -/
theorem knows_loadedLexer (text : List UInt8) : Knows (loadedLexer text) .start := by
  obtain ⟨hsame,_,_⟩ := loadedLexer_fields text
  have hzero : (0 : ℕ)≠lexerEof := by decide
  have hblank : Placed (blankLexer text) :=
    ⟨fun h => absurd h hzero,fun h => absurd h hzero,fun h => absurd h hzero⟩
  have hnot : (0 : ℕ)≠10 := by decide
  have hfirst := hblank.nextChar hzero
  have hchr1 : (nextChar (blankLexer text)).chr0=0 := chr0_nextChar _
  have hsecond := hfirst.nextChar (by rw [hchr1]; exact hzero)
  have hchr2 : (nextChar (nextChar (blankLexer text))).chr0≠lexerEof :=
    hfirst.not_end (by rw [hchr1]; exact hzero) (by rw [hchr1]; exact hnot)
  exact ⟨hsecond.nextChar hchr2,hsame.nestedBracketLevel,.nil,
    fun d hd => absurd hd not_mem_nil,.inl ⟨hsame.emitDent,rfl,hsame.indentLevel⟩⟩

theorem Knows.fitAll (h : Knows lex b) {lexers : List MpLexer} (hcalls : Calls optimise lex lexers)
    (hshallow : ∀ lexer∈lexers,lexer.tokKind=.newline → tokenColumn lexer<2^16) :
    b.FitAll lexers := by
  induction hcalls generalizing b with
  | nil lex => trivial
  | cons hcall hrest ih =>
    obtain ⟨hfits,hknows⟩ := h.next hcall (hshallow _ mem_cons_self)
    exact ⟨hfits,ih hknows fun lexer hmem => hshallow lexer (mem_cons_of_mem _ hmem)⟩

/-- A call before the end leaves less to read, or fewer tokens to come. -/
theorem next_decreases (h : Next lex lex') (hkind : lex'.tokKind≠.end) :
    left lex'<left lex∨left lex'≤left lex∧lex'.emitDent.natAbs<lex.emitDent.natAbs := by
  obtain ⟨hemit,_,_,_,_,hleft⟩ := begun_fields lex
  cases h with
  | dedent hdent heq =>
    refine .inr ⟨by rw [heq]; exact hleft,?_⟩
    rw [heq]
    dsimp only
    omega
  | indent hdent heq =>
    refine .inr ⟨by rw [heq]; exact hleft,?_⟩
    rw [heq]
    dsimp only
    omega
  | newline hdent hnewline hlevel heq =>
    have hlt : left (begun lex)<left lex := left_lt_of_newline {lex with vstr := []} hnewline
    have hsame : left (newline (begun lex))=left (begun lex) := by
      rw [newline]
      dsimp only
      split_ifs
      · rfl
      · rfl
      · rfl
      · rfl
    rw [heq,hsame]
    exact .inl hlt
  | stop hdent hline hend heq =>
    rw [heq] at hkind
    exact absurd rfl hkind
  | token hdent hline htoken => exact .inl (lt_of_lt_of_le htoken.left_lt hleft)

/-- What a call gives keeps the place of the end. -/
theorem Next.placed (h : Next lex lex') (hplaced : Placed lex) : Placed lex' := by
  have hbegun := (begun_fields lex).2.2.2.2.1 hplaced
  cases h with
  | dedent hdent heq =>
    rw [heq]
    exact ⟨hbegun.column,hbegun.last1,hbegun.last2⟩
  | indent hdent heq =>
    rw [heq]
    exact ⟨hbegun.column,hbegun.last1,hbegun.last2⟩
  | newline hdent hnewline hlevel heq =>
    rw [heq,Lexer.newline]
    split_ifs
    all_goals exact ⟨hbegun.column,hbegun.last1,hbegun.last2⟩
  | stop hdent hline hend heq =>
    rw [heq]
    exact ⟨hbegun.column,hbegun.last1,hbegun.last2⟩
  | token hdent hline htoken => exact htoken.placed hbegun

/-- After some calls the end is there, or the next one raises an exception. -/
theorem exists_calls (optimise : ℕ) (lex : MpLexer) (hplaced : Placed lex) :
    ∃ lexers,Calls optimise lex lexers∧((lexers.getLast?.map MpLexer.tokKind)=some .end∨
      mpLexerToNext optimise (lexers.getLastD lex)=none) := by
  cases hcall : mpLexerToNext optimise lex with
  | none => exact ⟨[],.nil lex,.inr hcall⟩
  | some lex' =>
    have hnext := next_of_mpLexerToNext hplaced hcall
    by_cases hkind : lex'.tokKind=.end
    · exact ⟨[lex'],.cons hcall (.nil lex'),.inl (congrArg some hkind)⟩
    · have hdecreases := next_decreases hnext hkind
      obtain ⟨lexers,hcalls,hlast⟩ := exists_calls optimise lex' (hnext.placed hplaced)
      refine ⟨lex'::lexers,.cons hcall hcalls,?_⟩
      cases lexers with
      | nil =>
        rcases hlast with hend | hraises
        · cases hend
        · exact .inr hraises
      | cons lexer lexers => exact hlast
termination_by (left lex,lex.emitDent.natAbs)
decreasing_by
  rcases hdecreases with hlt | ⟨hle,hlt⟩
  · exact .left _ _ hlt
  · rcases lt_or_eq_of_le hle with hless | heq
    · exact .left _ _ hless
    · rw [heq]
      exact .right _ hlt

/-- The tokens of a text come to the end or to an exception, and they fit as long as no line
begins where 16 bits are too few for its column. -/
theorem tokens_fit (optimise : ℕ) (text : List UInt8) :
    (∃ lexers,Calls optimise (loadedLexer text) lexers∧
      ((lexers.getLast?.map MpLexer.tokKind)=some .end∨
        mpLexerToNext optimise (lexers.getLastD (loadedLexer text))=none))∧
    ∀ lexers,Calls optimise (loadedLexer text) lexers →
      (∀ lexer∈lexers,lexer.tokKind=.newline → tokenColumn lexer<2^16) →
        Blocks.start.FitAll lexers := by
  have hknows := knows_loadedLexer text
  exact ⟨exists_calls optimise _ hknows.placed,fun lexers hcalls => hknows.fitAll hcalls⟩

/-- As many calls as asked for, unless there is an exception. -/
def calls (optimise : ℕ) : ℕ→MpLexer→List MpLexer
  | 0,_ => []
  | n+1,lex =>
    match mpLexerToNext optimise lex with
    | none => []
    | some lex' => lex'::calls optimise n lex'

theorem calls_spec (optimise n : ℕ) (lex : MpLexer) : Calls optimise lex (calls optimise n lex) := by
  induction n generalizing lex with
  | zero => exact .nil lex
  | succ n ih =>
    rw [calls]
    split
    · exact .nil lex
    case h_2 lex' h => exact .cons h (ih lex')

/-- The text `x:` with `y` below it, which is deeper. -/
def deeperText : List UInt8 := [120,58,10,32,121,10]

/-- Its tokens. -/
theorem tokens_fit_deeper : (calls 0 7 (loadedLexer deeperText)).map MpLexer.tokKind=
    [.name,.delColon,.newline,.indent,.name,.newline,.dedent]∧
      Blocks.start.FitAll (calls 0 7 (loadedLexer deeperText)) := by
  refine ⟨by decide +kernel,(tokens_fit 0 deeperText).2 _ (calls_spec _ _ _) ?_⟩
  decide +kernel

/-- In the text `x` with `(` below it, which is deeper, an INDENT comes but no DEDENT. In the
text `)(` with `x` below it, which is deeper, an INDENT comes after the bracket that is open. A
string with a name of a character raises an exception. -/
theorem not_tokens_balanced : (∃ lexers,Calls 0 (loadedLexer [120,10,32,40,10]) lexers∧
    (lexers.getLast?.map MpLexer.tokKind)=some .end∧
      (lexers.map MpLexer.tokKind).count .indent≠(lexers.map MpLexer.tokKind).count .dedent)∧
    (∃ lexers,Calls 0 (loadedLexer [41,40,10,32,120,10]) lexers∧
      lexers.map MpLexer.tokKind=[.delParenClose,.delParenOpen,.newline,.indent])∧
    mpLexerToNext 0 (loadedLexer [34,92,78,34])=none := by
  refine ⟨⟨calls 0 5 (loadedLexer [120,10,32,40,10]),calls_spec _ _ _,?_⟩,
    ⟨calls 0 4 (loadedLexer [41,40,10,32,120,10]),calls_spec _ _ _,?_⟩,?_⟩
  · decide +kernel
  · decide +kernel
  · exact Option.isNone_iff_eq_none.mp (by decide +kernel)

end MicroPython.LexerBlocks
