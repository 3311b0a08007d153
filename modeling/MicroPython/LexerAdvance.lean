import MicroPython.LexerStream

/-!
# How far the lexer goes

Every function of the lexer takes characters away from the front of what it sees and
changes nothing else about it. So each token is read from the text itself, and a name
is spelled as the text has it.
-/

namespace MicroPython.LexerAdvance

open List Unicode Lexer LexerStream

variable {lex lex' lex'' : MpLexer}

/-- Some of the characters that the first lexer sees are taken away for the second one, and
the token does not become a name. -/
structure Advances (lex lex' : MpLexer) : Prop where
  /-- What is left. -/
  sees : ∀ cs,Sees lex cs → ∃ n,Sees lex' (cs.drop n)
  kind : lex'.tokKind=.name → lex.tokKind=.name

/-- Two steps are one. -/
theorem Advances.trans (h : Advances lex lex') (h' : Advances lex' lex'') : Advances lex lex'' := by
  refine ⟨fun cs hcs => ?_,fun hkind => h.kind (h'.kind hkind)⟩
  obtain ⟨n,hn⟩ := h.sees cs hcs
  obtain ⟨m,hm⟩ := h'.sees _ hn
  rw [drop_drop] at hm
  exact ⟨n+m,hm⟩

/-- Of what is read only the window matters. -/
theorem advances_of_window (h0 : lex'.chr0=lex.chr0) (h1 : lex'.chr1=lex.chr1)
    (h2 : lex'.chr2=lex.chr2) (hreader : lex'.reader=lex.reader)
    (hkind : lex'.tokKind=.name → lex.tokKind=.name) : Advances lex lex' :=
  ⟨fun _ hcs => ⟨0,hcs.congr h0 h1 h2 hreader⟩,hkind⟩

/-- No step at all. -/
theorem Advances.refl (lex : MpLexer) : Advances lex lex := ⟨fun _ hcs => ⟨0,hcs⟩,id⟩

/-- `next_char` takes one character. -/
theorem advances_nextChar (lex : MpLexer) : Advances lex (nextChar lex) := by
  refine ⟨fun cs hcs => ⟨1,?_⟩,fun hkind => ?_⟩
  · rw [drop_one]
    exact hcs.nextChar
  · rw [(sameToken_nextChar lex).1.tokKind] at hkind
    exact hkind

/-- `next_char` after a step. -/
theorem Advances.nextChar (h : Advances lex lex') : Advances lex (nextChar lex') :=
  h.trans (advances_nextChar lex')

/-- The text of a token does not matter. -/
theorem advances_vstr (lex : MpLexer) (vstr : List UInt8) : Advances lex {lex with vstr := vstr} :=
  advances_of_window rfl rfl rfl rfl id

theorem Advances.addChar (h : Advances lex lex') (c : ℕ) : Advances lex (vstrAddChar lex' c) :=
  h.trans (advances_vstr lex' _)

theorem advances_tokKind (lex : MpLexer) {kind : TokenKind} (h : kind≠.name) :
    Advances lex {lex with tokKind := kind} :=
  advances_of_window rfl rfl rfl rfl fun hkind => absurd hkind h

/-! ## White space -/

/-- Characters are taken away one by one. -/
theorem steps_advances : Steps Advances where
  refl := .refl
  trans := .trans
  next lex _ := advances_nextChar lex
  continued _ _ := advances_nextChar _

/-! ## Literals -/

theorem advances_getHex (numDigits : ℕ) :
    ∀ num lex,Advances lex (getHex numDigits num lex).1 := by
  induction numDigits with
  | zero => exact fun num lex => .refl lex
  | succ numDigits ih =>
    intro num lex
    rw [getHex]
    split_ifs
    · exact (advances_nextChar lex).trans (ih _ _)
    · exact advances_nextChar lex

theorem advances_getOctal (digits : ℕ) : ∀ num lex,Advances lex (getOctal digits num lex).1 := by
  induction digits with
  | zero => exact fun num lex => .refl lex
  | succ digits ih =>
    intro num lex
    rw [getOctal]
    split_ifs
    · exact (advances_nextChar lex).trans (ih _ _)
    · exact .refl lex

theorem advances_hexEscape (numDigits : ℕ) (lex : MpLexer) :
    Advances lex (hexEscape numDigits lex).1 := by
  have hhex := advances_getHex numDigits 0 lex
  rw [hexEscape]
  split
  case h_1 lex' num h =>
    rw [h] at hhex
    exact hhex
  case h_2 lex' h =>
    rw [h] at hhex
    exact hhex.trans (advances_tokKind lex' (by decide))

/-- An escape is read. -/
theorem advances_escapedChar {r : MpLexer×ℕ} (h : escapedChar lex=some r) : Advances lex r.1 := by
  rw [escapedChar] at h
  split at h
  all_goals try split_ifs at h
  all_goals cases h
  all_goals first
    | with_reducible exact advances_hexEscape _ _
    | with_reducible exact advances_getOctal _ _ _
    | exact advances_of_window rfl rfl rfl rfl id

theorem advances_addEscaped (lex : MpLexer) (c : ℕ) : Advances lex (addEscaped lex c) := by
  rw [addEscaped]
  split_ifs
  · exact .refl lex
  · exact advances_vstr lex _
  · exact advances_vstr lex _
  · exact advances_tokKind lex (by decide)

/-- What follows a backslash is read. -/
theorem advances_backslash {isRaw : Bool} (h : backslash isRaw lex=some lex') :
    Advances lex lex' := by
  rw [backslash] at h
  split_ifs at h
  · cases h
    have hadd : Advances (nextChar lex) (vstrAddChar (nextChar lex) 92) := advances_vstr _ _
    exact (advances_nextChar lex).trans (hadd.trans (advances_addEscaped _ _))
  · obtain ⟨r,hr,heq⟩ := Option.map_eq_some_iff.mp h
    rw [←heq]
    exact (advances_nextChar lex).trans ((advances_escapedChar hr).trans (advances_addEscaped _ _))

theorem advances_literalLoop {quoteChar numQuotes : ℕ} {isRaw : Bool} (nClosing : ℕ)
    (lex : MpLexer) : ∀ r,literalLoop quoteChar numQuotes isRaw nClosing lex=some r →
      Advances lex r.2 :=
  steps_advances.literalLoop advances_vstr
    (fun _ hbackslash => (advances_backslash hbackslash).nextChar) nClosing lex

theorem advances_closeLiteral (numQuotes nClosing : ℕ) (lex : MpLexer) :
    Advances lex (closeLiteral numQuotes nClosing lex) := by
  rw [closeLiteral]
  split_ifs
  · exact (advances_tokKind lex (by decide)).trans (advances_vstr _ _)
  · exact advances_vstr lex _

/-- A literal is read. -/
theorem advances_parseStringLiteral {isRaw : Bool} (h : parseStringLiteral lex isRaw=some lex') :
    Advances lex lex' := by
  rw [parseStringLiteral] at h
  split_ifs at h
  · obtain ⟨r,hr,heq⟩ := Option.map_eq_some_iff.mp h
    rw [←heq]
    exact (advances_nextChar lex).nextChar.nextChar.trans
      ((advances_literalLoop _ _ r hr).trans (advances_closeLiteral _ _ _))
  · obtain ⟨r,hr,heq⟩ := Option.map_eq_some_iff.mp h
    rw [←heq]
    exact (advances_nextChar lex).trans
      ((advances_literalLoop _ _ r hr).trans (advances_closeLiteral _ _ _))

theorem typeCodes_ne_name (lex : MpLexer) : (typeCodes lex).2.1≠.name := by
  rw [typeCodes]
  split_ifs
  all_goals exact fun hkind => nomatch hkind

/-- A literal is read with its type codes and the white space after it. -/
theorem advances_literal (h : literal (typeCodes lex).2.1 lex=some lex') : Advances lex lex' := by
  obtain ⟨lex2,hparse,heq⟩ := Option.map_eq_some_iff.mp h
  have hskip : Advances lex
      (skipTypeCodes (typeCodes lex).2.2 {lex with tokKind := (typeCodes lex).2.1}) := by
    have hkind := advances_tokKind lex (typeCodes_ne_name lex)
    rw [skipTypeCodes]
    split_ifs
    · exact hkind.nextChar.nextChar
    · exact hkind.nextChar
    · exact hkind
  rw [←heq]
  exact hskip.trans ((advances_parseStringLiteral hparse).trans
    (steps_advances.skipWhitespaceLoop true false lex2))

/-- Literals in a row are read. -/
theorem advances_literals (lex : MpLexer) : ∀ lex',literals lex=some lex' → Advances lex lex' := by
  fun_induction literals lex with
  | case1 lex hstring hkind lex2 hliteral ih =>
    intro lex' h
    exact (advances_literal hliteral).trans (ih lex' h)
  | case2 lex hstring hkind hliteral =>
    intro lex' h
    cases h
  | case3 lex hstring hkind =>
    intro lex' h
    cases h
    exact .refl lex
  | case4 lex hstring =>
    intro lex' h
    cases h
    exact .refl lex

/-! ## Numbers and operators -/

theorem advances_exponentSign (lex : MpLexer) : Advances lex (exponentSign lex) := by
  have hadd : Advances lex (vstrAddChar lex lex.chr0) := advances_vstr lex _
  rw [exponentSign]
  split_ifs
  · exact hadd.nextChar
  · exact .refl lex

/-- The tail of a number is read. -/
theorem advances_numberTail (forcedInteger : Bool) (lex : MpLexer) :
    Advances lex (numberTail forcedInteger lex) := by
  fun_induction numberTail forcedInteger lex with
  | case1 lex hend =>
    exact .refl lex
  | case2 lex hend hexp ih =>
    have hkind : Advances lex {lex with tokKind := .floatOrImag} :=
      advances_tokKind lex (by decide)
    have hadd := (hkind.addChar 101).nextChar
    exact (hadd.trans (advances_exponentSign _)).trans ih
  | case3 lex hend hexp hdigit ih =>
    have hkind : Advances lex
        (if isCharOr3 lex 46 106 74 then {lex with tokKind := .floatOrImag} else lex) := by
      split_ifs
      · exact advances_tokKind lex (by decide)
      · exact .refl lex
    exact (hkind.addChar lex.chr0).nextChar.trans ih
  | case4 lex hend hexp hdigit =>
    exact .refl lex

/-- A number is read. -/
theorem advances_number (lex : MpLexer) : Advances lex (number lex) := by
  have hkind : Advances lex
      {lex with tokKind := if isChar lex 46 then .floatOrImag else .integer} := by
    refine advances_tokKind lex ?_
    split_ifs
    · decide
    · decide
  rw [number]
  exact (hkind.addChar lex.chr0).nextChar.trans (advances_numberTail _ _)

/-- The rest of an operator is read. -/
theorem advances_longestToken (lex : MpLexer) (t : List ℕ) (tIndex tokEncIndex : ℕ) :
    Advances lex (longestToken lex t tIndex tokEncIndex).1 := by
  fun_induction longestToken lex t tIndex tokEncIndex with
  | case1 lex tIndex tokEncIndex d t hc hd =>
    exact advances_nextChar lex
  | case2 lex tIndex tokEncIndex c d t hc hd hne ih =>
    exact (advances_nextChar lex).trans ih
  | case3 lex tIndex tokEncIndex d t hd hc =>
    exact .refl lex
  | case4 lex tIndex tokEncIndex c d t hc hd hne ih =>
    exact ih
  | case5 lex tIndex tokEncIndex c d t hc =>
    exact .refl lex
  | case6 lex t tIndex tokEncIndex hshort => exact .refl _

theorem tokEncKind_ne_name (index : ℕ) : tokEncKind.getD index .invalid≠.name := by
  have hall : ∀ kind∈tokEncKind,kind≠.name := by decide
  rw [getD_eq_getElem?_getD]
  cases h : tokEncKind[index]? with
  | none => exact fun hkind => nomatch hkind
  | some kind => exact hall kind (mem_of_getElem? h)

/-- An operator is read. -/
theorem advances_operator (lex : MpLexer) : Advances lex (operator lex) := by
  rw [operator]
  split
  · exact (advances_nextChar lex).trans (advances_tokKind _ (by decide))
  · split_ifs
    · exact (advances_nextChar lex).nextChar.trans (advances_tokKind _ (by decide))
    · exact (advances_nextChar lex).trans (advances_tokKind _ (by decide))
  · split_ifs
    · exact (advances_nextChar lex).nextChar.nextChar.trans (advances_tokKind _ (by decide))
    · exact (advances_nextChar lex).trans (advances_tokKind _ (by decide))
  · next t tokEncIndex _ _ _ =>
    have hlong := advances_longestToken (nextChar lex) t tokEncIndex tokEncIndex
    exact ((advances_nextChar lex).trans hlong).trans
      (advances_of_window rfl rfl rfl rfl fun hkind => absurd hkind (tokEncKind_ne_name _))

/-- A new line is no name. -/
theorem advances_newline (lex : MpLexer) : Advances lex (newline lex) := by
  rw [newline]
  dsimp only
  split_ifs
  · exact advances_tokKind lex (by decide)
  · exact advances_of_window rfl rfl rfl rfl fun hkind => nomatch hkind
  · exact advances_of_window rfl rfl rfl rfl fun hkind => nomatch hkind
  · exact advances_of_window rfl rfl rfl rfl fun hkind => nomatch hkind

/-! ## Names -/

/-- A character of an identifier after the first one. -/
def isTail (c : ℕ) : Bool :=
  unicharIsalpha c||decide (c=95)||decide (0x80≤c)||unicharIsdigit c

/-- The tail of a name is read to its end. -/
theorem nameTail_spec (lex : MpLexer) : ∀ cs,Sees lex cs →
    Sees (nameTail lex) (cs.dropWhile isTail)∧
      (nameTail lex).vstr=lex.vstr++(cs.takeWhile isTail).map UInt8.ofNat := by
  fun_induction nameTail lex with
  | case1 lex hend =>
    intro cs hcs
    cases cs with
    | nil => exact ⟨hcs,(append_nil _).symm⟩
    | cons c cs => exact absurd hend hcs.not_isEnd
  | case2 lex hend htail ih =>
    intro cs hcs
    cases cs with
    | nil => exact absurd (decide_eq_true hcs.atEnd) hend
    | cons c cs =>
      have hadded : Sees (vstrAddByte lex lex.chr0) (c::cs) := hcs.congr rfl rfl rfl rfl
      obtain ⟨hsees,hvstr⟩ := ih cs hadded.nextChar
      have hc : isTail c=true := by
        rw [←hcs.chr0.1]
        exact htail
      rw [dropWhile_cons,takeWhile_cons,if_pos hc,if_pos hc,map_cons,hvstr]
      refine ⟨hsees,?_⟩
      rw [(sameToken_nextChar _).2,vstrAddByte,hcs.chr0.1,append_assoc]
      rfl
  | case3 lex hend htail =>
    intro cs hcs
    cases cs with
    | nil => exact absurd (decide_eq_true hcs.atEnd) hend
    | cons c cs =>
      have hc : ¬isTail c=true := by
        rw [←hcs.chr0.1]
        exact htail
      rw [dropWhile_cons,takeWhile_cons,if_neg hc,if_neg hc]
      exact ⟨hcs,(append_nil _).symm⟩

/-- A name or a keyword is read to its end, and its text is its spelling. -/
theorem name_spec (optimise : ℕ) (hhead : isHeadOfIdentifier lex=true) (hend : ¬isEnd lex=true)
    (hvstr : lex.vstr=[]) {cs : List ℕ} (hcs : Sees lex cs) :
    Sees (name optimise lex) (cs.dropWhile isTail)∧
      (name optimise lex).vstr=(cs.takeWhile isTail).map UInt8.ofNat := by
  have htail : isTailOfIdentifier lex=true := by
    rw [isTailOfIdentifier,hhead,Bool.true_or]
  have hname : nameTail lex=nameTail (nextChar (vstrAddByte lex lex.chr0)) := by
    rw [nameTail,dif_neg hend,if_pos htail]
  obtain ⟨hsees,htext⟩ := nameTail_spec lex cs hcs
  rw [hname] at hsees htext
  rw [hvstr,nil_append] at htext
  rw [name]
  split
  · exact ⟨hsees.congr rfl rfl rfl rfl,htext⟩
  · exact ⟨hsees.congr rfl rfl rfl rfl,htext⟩

/-- Skipping white space leaves the text of the token. -/
theorem vstr_skipWhitespaceLoop (stopAtNewline hadPhysicalNewline : Bool) (lex : MpLexer) :
    (skipWhitespaceLoop stopAtNewline hadPhysicalNewline lex).2.vstr=lex.vstr := by
  have hnext : ∀ lex : MpLexer,(nextChar lex).vstr=lex.vstr :=
    fun lex => (sameToken_nextChar lex).2
  have hsteps : Steps fun lex lex' => lex'.vstr=lex.vstr :=
    ⟨fun _ => rfl,fun h h' => h'.trans h,fun lex _ => hnext lex,fun _ _ => hnext _⟩
  exact hsteps.skipWhitespaceLoop stopAtNewline hadPhysicalNewline lex

/-! ## Tokens -/

theorem newline_ne_name (lex : MpLexer) : (newline lex).tokKind≠.name := by
  rw [newline]
  dsimp only
  split_ifs
  all_goals exact fun hkind => nomatch hkind

theorem operator_ne_name (lex : MpLexer) : (operator lex).tokKind≠.name := by
  rw [operator]
  split
  · exact fun hkind => nomatch hkind
  · split_ifs
    all_goals exact fun hkind => nomatch hkind
  · split_ifs
    all_goals exact fun hkind => nomatch hkind
  · exact tokEncKind_ne_name _

theorem number_ne_name (lex : MpLexer) : (number lex).tokKind≠.name := by
  intro hkind
  have hnone : (number {lex with tokKind := .end}).tokKind=.name := hkind
  exact nomatch (advances_number {lex with tokKind := .end}).kind hnone

/-- Where the next token begins. -/
def tokenStart (lex : MpLexer) : MpLexer := (skipWhitespace {lex with vstr := []} false).2

/-- The identifier that the text has at the next token. -/
def spelling (lex : MpLexer) : List ℕ := (stream (tokenStart lex)).takeWhile isTail

theorem advances_tokenStart (lex : MpLexer) : Advances lex (tokenStart lex) :=
  (advances_vstr lex []).trans (steps_advances.skipWhitespaceLoop false false _)

theorem drop_takeWhile (p : ℕ→Bool) (cs : List ℕ) :
    cs.drop (cs.takeWhile p).length=cs.dropWhile p := by
  have hsplit := @takeWhile_append_dropWhile _ p cs
  exact (congrArg (List.drop (cs.takeWhile p).length) hsplit.symm).trans drop_left

/-- A token is read from the text. A name is spelled as the text has it. -/
theorem mpLexerToNext_spec (optimise : ℕ) {cs : List ℕ} (hcs : Sees lex cs)
    (h : mpLexerToNext optimise lex=some lex') :
    (∃ n,Sees lex' (cs.drop n))∧
      (lex'.tokKind=.name → lex'.vstr=(spelling lex).map UInt8.ofNat) := by
  obtain ⟨n,hn⟩ := (advances_tokenStart lex).sees cs hcs
  have hvstr : (tokenStart lex).vstr=[] := vstr_skipWhitespaceLoop false false _
  have hother : ∀ {lex' : MpLexer},(∃ m,Sees lex' ((cs.drop n).drop m)) → lex'.tokKind≠.name →
      (∃ n,Sees lex' (cs.drop n))∧
        (lex'.tokKind=.name → lex'.vstr=(spelling lex).map UInt8.ofNat) := by
    rintro lex' ⟨m,hm⟩ hne
    rw [drop_drop] at hm
    exact ⟨⟨n+m,hm⟩,fun hkind => absurd hkind hne⟩
  have hspelling : spelling lex=(cs.drop n).takeWhile isTail := by
    rw [spelling,hn.stream_eq]
  revert h
  rw [mpLexerToNext]
  dsimp only
  revert hn hvstr
  rw [show (skipWhitespace {lex with vstr := []} false).2=tokenStart lex from rfl]
  generalize (skipWhitespace {lex with vstr := []} false).1=had
  generalize tokenStart lex=start
  intro hn hvstr h
  have hloaded : Sees {start with
      tokLine := start.line
      tokColumn := start.column} (cs.drop n) := hn.congr rfl rfl rfl rfl
  split_ifs at h with hdedent hindent hnewline hend hstring hhead hdigit
  · cases h
    exact hother ⟨0,hn.congr rfl rfl rfl rfl⟩ (fun hkind => nomatch hkind)
  · cases h
    exact hother ⟨0,hn.congr rfl rfl rfl rfl⟩ (fun hkind => nomatch hkind)
  · cases h
    exact hother ((advances_newline _).sees _ hloaded) (newline_ne_name _)
  · cases h
    exact hother ⟨0,hn.congr rfl rfl rfl rfl⟩ (fun hkind => nomatch hkind)
  · have hliterals := advances_literals _ lex' h
    exact hother (hliterals.sees _ (hn.congr rfl rfl rfl rfl)) (fun hkind =>
      nomatch hliterals.kind hkind)
  · cases h
    obtain ⟨hsees,htext⟩ := name_spec optimise hhead hend hvstr hloaded
    refine ⟨⟨n+((cs.drop n).takeWhile isTail).length,?_⟩,fun _ => ?_⟩
    · rw [←drop_drop,drop_takeWhile]
      exact hsees
    · rw [hspelling]
      exact htext
  · cases h
    exact hother ((advances_number _).sees _ hloaded) (number_ne_name _)
  · cases h
    exact hother ((advances_operator _).sees _ hloaded) (operator_ne_name _)

/-- The tokens of a text, each with the lexer before it. -/
inductive Token (optimise : ℕ) (text : List UInt8) : MpLexer→MpLexer→Prop where
  | first {lex : MpLexer} (h : mpLexerNew optimise text=some lex) :
      Token optimise text (loadedLexer text) lex
  | next {prev lex lex' : MpLexer} (htoken : Token optimise text prev lex)
      (h : mpLexerToNext optimise lex=some lex') : Token optimise text lex lex'

variable {optimise : ℕ} {text : List UInt8} {prev : MpLexer}

/-- The first token is that of `mp_lexer_to_next`, or an INDENT. -/
theorem mpLexerNew_spec (h : mpLexerNew optimise text=some lex) :
    (∃ n,Sees lex ((textChars text).drop n))∧
      (lex.tokKind=.name → lex.vstr=(spelling (loadedLexer text)).map UInt8.ofNat) := by
  obtain ⟨first,hfirst,heq⟩ := Option.map_eq_some_iff.mp h
  obtain ⟨⟨n,hn⟩,hname⟩ := mpLexerToNext_spec optimise (sees_loadedLexer text) hfirst
  rw [←heq]
  split_ifs
  · exact ⟨⟨n,hn.congr rfl rfl rfl rfl⟩,fun hkind => nomatch hkind⟩
  · exact ⟨⟨n,hn⟩,hname⟩

/-- Before and after a token the lexer sees an end of the text. -/
theorem Token.sees (h : Token optimise text prev lex) :
    (∃ n,Sees prev ((textChars text).drop n))∧∃ n,Sees lex ((textChars text).drop n) := by
  induction h with
  | first h => exact ⟨⟨0,sees_loadedLexer text⟩,(mpLexerNew_spec h).1⟩
  | next htoken h ih =>
    obtain ⟨n,hn⟩ := ih.2
    obtain ⟨⟨m,hm⟩,_⟩ := mpLexerToNext_spec optimise hn h
    rw [drop_drop] at hm
    exact ⟨⟨n,hn⟩,n+m,hm⟩

/-- The characters of a text are bytes. -/
theorem textChars_lt (text : List UInt8) : ∀ c∈textChars text,c<256 := by
  have hall : ∀ (prev : ℕ) (reader : List ℕ),(∀ c∈reader,c<256) →
      ∀ c∈following prev reader,c<256 := by
    intro prev reader
    fun_induction following prev reader with
    | case1 prev hend =>
      intro _ c hc
      exact absurd hc not_mem_nil
    | case2 prev hend =>
      intro _ c hc
      rw [mem_singleton.mp hc]
      decide
    | case3 prev reader ih =>
      intro hreader c hc
      rcases mem_cons.mp hc with hten | hrest
      · rw [hten]
        decide
      · exact ih (fun d hd => hreader d (.tail _ (.tail _ hd))) c hrest
    | case4 prev reader hlf ih =>
      intro hreader c hc
      rcases mem_cons.mp hc with hten | hrest
      · rw [hten]
        decide
      · exact ih (fun d hd => hreader d (.tail _ hd)) c hrest
    | case5 prev d reader hlf hcr ih =>
      intro hreader c hc
      rcases mem_cons.mp hc with hfirst | hrest
      · exact hreader c (hfirst▸mem_cons_self)
      · exact ih (fun e he => hreader e (.tail _ he)) c hrest
  refine hall 0 _ fun c hc => ?_
  obtain ⟨b,_,hb⟩ := mem_map.mp hc
  rw [←hb]
  exact b.toNat_lt

/-- The text of a name token is its spelling. -/
theorem Token.vstr_eq (h : Token optimise text prev lex) (hkind : lex.tokKind=.name) :
    lex.vstr.map UInt8.toNat=spelling prev := by
  have hvstr : lex.vstr=(spelling prev).map UInt8.ofNat := by
    cases h with
    | first h => exact (mpLexerNew_spec h).2 hkind
    | next htoken h =>
      obtain ⟨n,hn⟩ := htoken.sees.2
      exact (mpLexerToNext_spec optimise hn h).2 hkind
  obtain ⟨n,hn⟩ := h.sees.1
  obtain ⟨m,hm⟩ := (advances_tokenStart prev).sees _ hn
  have hlt : ∀ c∈spelling prev,c<256 := by
    intro c hc
    rw [spelling,hm.stream_eq] at hc
    have hmem := mem_of_mem_drop (mem_of_mem_drop ((takeWhile_subset _) hc))
    exact textChars_lt text c hmem
  rw [hvstr,map_map]
  refine (map_congr_left fun c hc => ?_).trans (map_id _)
  exact UInt8.toNat_ofNat_of_lt (hlt c hc)

end MicroPython.LexerAdvance
