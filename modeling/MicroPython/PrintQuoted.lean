import MicroPython.LexerStream
import Mathlib.Tactic.Ring

/-!
# Quoted strings

The repr of a str is printed by `uni_print_quoted` and that of a bytes object by
`mp_str_print_quoted`. The lexer reads both back as one literal.
-/

namespace MicroPython.PrintQuoted

open Nat List Utf8 Unicode Lexer LexerStream

/-- The loop that looks for quotes: whether there are single and double ones, where the
search ends at the first double one. -/
def scanQuotes : List UInt8→Bool→Bool→Bool×Bool
  | [],hasSingleQuote,hasDoubleQuote => (hasSingleQuote,hasDoubleQuote)
  | c::s,hasSingleQuote,hasDoubleQuote =>
    if hasDoubleQuote then (hasSingleQuote,hasDoubleQuote)
    else if c=39 then scanQuotes s true hasDoubleQuote
    else if c=34 then scanQuotes s hasSingleQuote true
    else scanQuotes s hasSingleQuote hasDoubleQuote

/-- The quote that is printed around a string. -/
def quoteChar (strData : List UInt8) : ℕ :=
  if (scanQuotes strData false false).1&&!(scanQuotes strData false false).2 then 34 else 39

/-- A hexadecimal digit of `mp_print_int`. -/
def hexDigit (c : ℕ) : UInt8 := if 10≤c then UInt8.ofNat (c+(97-10)) else UInt8.ofNat (c+48)

/-- The loop of `mp_print_int` with the room that is left in its buffer. -/
def printIntLoop : ℕ→ℕ→List UInt8→List UInt8
  | 0,_,b => b
  | room+1,x,b =>
    if x/16≠0 then printIntLoop room (x/16) (hexDigit (x%16)::b) else hexDigit (x%16)::b

/-- `mp_print_int` of a number that is not zero, or the digit zero. -/
def hexText (x : ℕ) : List UInt8 := if x=0 then [48] else printIntLoop 16 x []

/-- The formats `%02x`, `%04x` and `%08x`: zeros are put in front up to the width. -/
def printHex (width x : ℕ) : List UInt8 :=
  List.replicate (width-(hexText x).length) 48++hexText x

/-- What `uni_print_quoted` prints for a character. -/
def uniPiece (quote ch : ℕ) : List UInt8 :=
  if ch=quote then [92,UInt8.ofNat quote]
  else if ch=92 then [92,92]
  else if 32≤ch∧ch≤126 then [UInt8.ofNat ch]
  else if ch=10 then [92,110]
  else if ch=13 then [92,114]
  else if ch=9 then [92,116]
  else if ch<0x100 then 92::120::printHex 2 ch
  else if ch<0x10000 then 92::117::printHex 4 ch
  else 92::85::printHex 8 ch

/-- The loop of `uni_print_quoted` over characters, which is over after as many rounds as
there are bytes. -/
def uniLoop (strData : List UInt8) (quote : ℕ) : ℕ→ℕ→Option (List UInt8)
  | 0,s => if s < strData.length then none else some []
  | rounds+1,s =>
    if s < strData.length then do
      let ch ← utf8GetChar strData s
      let s ← utf8NextChar strData s
      let rest ← uniLoop strData quote rounds s
      pure (uniPiece quote ch++rest)
    else some []

/-- `uni_print_quoted`, unless it reads after the end. -/
def uniPrintQuoted (strData : List UInt8) : Option (List UInt8) := do
  let body ← uniLoop strData (quoteChar strData) strData.length 0
  pure (UInt8.ofNat (quoteChar strData)::(body++[UInt8.ofNat (quoteChar strData)]))

/-- What `mp_str_print_quoted` prints for a byte. -/
def strPiece (isBytes : Bool) (quote : ℕ) (s : UInt8) : List UInt8 :=
  if s.toNat=quote then [92,UInt8.ofNat quote]
  else if s.toNat=92 then [92,92]
  else if 0x20 ≤ s.toNat∧s.toNat≠0x7F∧(isBytes=false∨s.toNat<0x80) then [s]
  else if s.toNat=10 then [92,110]
  else if s.toNat=13 then [92,114]
  else if s.toNat=9 then [92,116]
  else 92::120::printHex 2 s.toNat

/-- `mp_str_print_quoted`. -/
def mpStrPrintQuoted (strData : List UInt8) (isBytes : Bool) : List UInt8 :=
  UInt8.ofNat (quoteChar strData)::
    (strData.flatMap (strPiece isBytes (quoteChar strData))++[UInt8.ofNat (quoteChar strData)])

/-- `str_print` of a bytes object for its repr. -/
def strPrint (strData : List UInt8) : List UInt8 := 98::mpStrPrintQuoted strData true

/-! ## Hexadecimal digits -/

/-- As many digits as asked for, the first one first. -/
def fixedHex : ℕ→ℕ→List UInt8
  | 0,_ => []
  | n+1,x => hexDigit (x/16^n%16)::fixedHex n x

theorem fixedHex_snoc (n x : ℕ) : fixedHex (n+1) x=fixedHex n (x/16)++[hexDigit (x%16)] := by
  induction n with
  | zero =>
    rw [fixedHex,fixedHex,fixedHex,pow_zero,Nat.div_one,nil_append]
  | succ n ih =>
    rw [fixedHex,ih,fixedHex,cons_append,Nat.div_div_eq_div_mul,←pow_succ']

theorem fixedHex_zero (n : ℕ) : fixedHex n 0=List.replicate n 48 := by
  induction n with
  | zero => rfl
  | succ n ih =>
    rw [fixedHex,ih,Nat.zero_div,replicate_succ]
    rfl

/-- The loop of `mp_print_int` puts its digits in front. -/
theorem printIntLoop_append (room : ℕ) : ∀ x b,printIntLoop room x b=printIntLoop room x []++b := by
  induction room with
  | zero => exact fun x b => rfl
  | succ room ih =>
    intro x b
    rw [printIntLoop,printIntLoop]
    split_ifs
    · rw [ih (x/16) (hexDigit (x%16)::b),ih (x/16) [hexDigit (x%16)],append_assoc,singleton_append]
    · rfl

/-- The digits with zeros in front are as many as asked for. -/
theorem padded_printIntLoop (n : ℕ) : ∀ room x,n ≤ room → x≠0 → x<16^n →
    (printIntLoop room x []).length≤n∧
      List.replicate (n-(printIntLoop room x []).length) 48++printIntLoop room x []=
        fixedHex n x := by
  induction n with
  | zero => exact fun room x _ hx hlt => absurd (lt_one_iff.mp hlt) hx
  | succ n ih =>
    intro room x hroom hx hlt
    cases room with
    | zero => exact absurd hroom (not_succ_le_zero n)
    | succ room =>
      rw [printIntLoop,fixedHex_snoc]
      split_ifs with hmore
      · have hdiv : x/16<16^n := by
          rw [pow_succ] at hlt
          exact Nat.div_lt_of_lt_mul (by rwa [Nat.mul_comm] at hlt)
        obtain ⟨hlength,hpad⟩ := ih room (x/16) (le_of_succ_le_succ hroom) hmore hdiv
        rw [printIntLoop_append,length_append,length_singleton,Nat.add_sub_add_right,
          ←append_assoc,hpad]
        exact ⟨succ_le_succ hlength,rfl⟩
      · rw [not_not.mp hmore,fixedHex_zero]
        exact ⟨succ_pos n,rfl⟩

/-- The formats give as many digits as asked for. -/
theorem printHex_eq {width x : ℕ} (hpos : 0<width) (hroom : width≤16) (h : x<16^width) :
    printHex width x=fixedHex width x := by
  rw [printHex,hexText]
  split_ifs with hx
  · rw [hx,fixedHex_zero,length_singleton]
    have hone : width=width-1+1 := by omega
    conv_rhs => rw [hone,replicate_succ']
  · exact (padded_printIntLoop width 16 x hroom hx h).2

variable {c : ℕ}

theorem hexDigit_spec (h : c<16) :
    unicharIsxdigit (hexDigit c).toNat=true∧unicharXdigitValue (hexDigit c).toNat=c := by
  have hall : ∀ c : Fin 16,unicharIsxdigit (hexDigit c).toNat=true∧
      unicharXdigitValue (hexDigit c).toNat=c := by decide +kernel
  exact hall ⟨c,h⟩

/-! ## The lexer on pieces -/

variable {lex lex' : MpLexer} {cs : List ℕ}

/-- The lexer reads characters in a literal of a kind within a quote as bytes. -/
def Reads (kind : TokenKind) (quote : ℕ) (piece out : List UInt8) : Prop :=
  ∀ (lex : MpLexer) (rest : List ℕ),Sees lex (piece.map UInt8.toNat++rest) → lex.tokKind=kind →
    ∃ lex',literalLoop quote 1 false 0 lex=literalLoop quote 1 false 0 lex'∧Sees lex' rest∧
      lex'.vstr=lex.vstr++out∧SameToken lex lex'

/-- Nothing is read as nothing. -/
theorem reads_nil (kind : TokenKind) (quote : ℕ) : Reads kind quote [] [] :=
  fun lex _ hsees _ => ⟨lex,rfl,hsees,(append_nil _).symm,SameToken.refl lex⟩

variable {kind : TokenKind} {quote v : ℕ} {out : List UInt8} {e : UInt8} {rest : List ℕ}

/-- Pieces are read one after the other. -/
theorem Reads.append {piece piece' out' : List UInt8}
    (h : Reads kind quote piece out) (h' : Reads kind quote piece' out') :
    Reads kind quote (piece++piece') (out++out') := by
  intro lex rest hsees hkind
  rw [map_append,append_assoc] at hsees
  obtain ⟨lex1,hloop1,hsees1,hvstr1,hsame1⟩ := h lex _ hsees hkind
  obtain ⟨lex2,hloop2,hsees2,hvstr2,hsame2⟩ := h' lex1 _ hsees1 (hsame1.tokKind.trans hkind)
  refine ⟨lex2,hloop1.trans hloop2,hsees2,?_,hsame1.trans hsame2⟩
  rw [hvstr2,hvstr1,append_assoc]

theorem reads_flatMap {α : Type} {piece out : α→List UInt8}
    {l : List α} (h : ∀ a∈l,Reads kind quote (piece a) (out a)) :
    Reads kind quote (l.flatMap piece) (l.flatMap out) := by
  induction l with
  | nil => exact reads_nil kind quote
  | cons a l ih =>
    obtain ⟨ha,hl⟩ := forall_mem_cons.mp h
    exact ha.append (ih hl)

theorem goesOn (h : Sees lex (c::cs)) (hc : c≠10) : ¬(¬1<1∧isPhysicalNewline lex=true∨¬0<1) := by
  rintro (⟨_,hnewline⟩ | hzero)
  · exact hc (h.chr0.1.symm.trans (of_decide_eq_true hnewline))
  · exact hzero (by decide)

/-- A byte that is printed as it is. -/
theorem reads_plain (kind : TokenKind) {c : UInt8} (hquote : c.toNat≠quote)
    (hslash : c.toNat≠92) (hnewline : c.toNat≠10) : Reads kind quote [c] [c] := by
  intro lex rest hsees hkind
  have hc := hsees.chr0.1
  have hadd : Sees (vstrAddByte lex lex.chr0) (c.toNat::rest) := hsees.congr rfl rfl rfl rfl
  obtain ⟨hsame,hvstr⟩ := sameToken_nextChar (vstrAddByte lex lex.chr0)
  refine ⟨nextChar (vstrAddByte lex lex.chr0),?_,hadd.nextChar,?_,?_⟩
  · have hnotQuote : ¬isChar lex quote=true := fun h =>
      hquote (hc.symm.trans (of_decide_eq_true h))
    have hnotSlash : ¬isChar lex 92=true := fun h => hslash (hc.symm.trans (of_decide_eq_true h))
    rw [literalLoop,dif_neg hsees.not_isEnd,if_neg (goesOn hsees hnewline),if_neg hnotQuote,
      if_neg hnotSlash]
  · rw [hvstr,vstrAddByte,hc,UInt8.ofNat_toNat]
  · have hadded : SameToken lex (vstrAddByte lex lex.chr0) := ⟨rfl,rfl,rfl,rfl,rfl⟩
    exact hadded.trans hsame

/-- The character of an escape is added: in a str as its encoding, in bytes as it is. -/
theorem addEscaped_spec (hout : lex.tokKind=.string∧v<0x110000∧charBytes v=out∨
      lex.tokKind=.bytes∧v<0x100∧[UInt8.ofNat v]=out) :
    addEscaped lex v={lex with vstr := lex.vstr++out} := by
  rw [addEscaped]
  rcases hout with ⟨hkind,hv,rfl⟩ | ⟨hkind,hv,rfl⟩
  · have heof : v≠lexerEof := by
      rw [lexerEof]
      omega
    rw [if_neg heof,if_pos ⟨hv,hkind⟩,vstrAddChar]
  · have heof : v≠lexerEof := by
      rw [lexerEof]
      omega
    have hnot : ¬(v<0x110000∧lex.tokKind=.string) := by
      rw [hkind]
      exact fun h => by cases h.2
    rw [if_neg heof,if_neg hnot,if_pos ⟨hv,hkind⟩,vstrAddByte]

/-- An escape: what the lexer makes of the characters after the backslash. -/
theorem reads_escape {escape : List UInt8} (hquote : quote≠92)
    (hout : kind=.string∧v<0x110000∧charBytes v=out∨kind=.bytes∧v<0x100∧[UInt8.ofNat v]=out)
    (hescape : ∀ (lex : MpLexer) (rest : List ℕ),Sees lex (escape.map UInt8.toNat++rest) →
      lex.tokKind=kind → ∃ lex' last,escapedChar lex=some (lex',v)∧Sees lex' (last::rest)∧
        lex'.vstr=lex.vstr∧SameToken lex lex') :
    Reads kind quote (92::escape) out := by
  intro lex rest hsees hkind
  have hc := hsees.chr0.1
  obtain ⟨hsame1,hvstr1⟩ := sameToken_nextChar lex
  obtain ⟨lex2,last,hescaped,hsees2,hvstr2,hsame2⟩ :=
    hescape (nextChar lex) rest hsees.nextChar (hsame1.tokKind.trans hkind)
  have hsame := hsame1.trans hsame2
  have hadd : addEscaped lex2 v={lex2 with vstr := lex2.vstr++out} := by
    refine addEscaped_spec ?_
    rw [hsame.tokKind,hkind]
    exact hout
  have hbackslash : backslash false lex=some {lex2 with vstr := lex2.vstr++out} := by
    rw [backslash,if_neg Bool.false_ne_true,hescaped]
    exact congrArg some hadd
  have hsees3 : Sees {lex2 with vstr := lex2.vstr++out} (last::rest) :=
    hsees2.congr rfl rfl rfl rfl
  obtain ⟨hsame4,hvstr4⟩ := sameToken_nextChar {lex2 with vstr := lex2.vstr++out}
  refine ⟨nextChar {lex2 with vstr := lex2.vstr++out},?_,hsees3.nextChar,?_,?_⟩
  · have hnotQuote : ¬isChar lex quote=true := fun h =>
      hquote ((of_decide_eq_true h : lex.chr0=quote).symm.trans hc)
    have hslash : isChar lex 92=true := decide_eq_true hc
    have hten : (92 : UInt8).toNat≠10 := by decide
    rw [literalLoop,dif_neg hsees.not_isEnd,if_neg (goesOn hsees hten),if_neg hnotQuote,
      if_pos hslash]
    split
    case h_1 lex3 h =>
      rw [hbackslash] at h
      cases h
      rfl
    case h_2 h =>
      rw [hbackslash] at h
      cases h
  · rw [hvstr4]
    show lex2.vstr++out=_
    rw [hvstr2,hvstr1]
  · have hadded : SameToken lex2 {lex2 with vstr := lex2.vstr++out} := ⟨rfl,rfl,rfl,rfl,rfl⟩
    exact hsame.trans (hadded.trans hsame4)

theorem reads_simple (hquote : quote≠92)
    (hout : kind=.string∧v<0x110000∧charBytes v=out∨kind=.bytes∧v<0x100∧[UInt8.ofNat v]=out)
    (hescape : ∀ lex : MpLexer,lex.chr0=e.toNat → escapedChar lex=some (lex,v)) :
    Reads kind quote [92,e] out := by
  refine reads_escape hquote hout fun lex rest hsees _ => ?_
  exact ⟨lex,e.toNat,hescape lex hsees.chr0.1,hsees,rfl,SameToken.refl lex⟩

/-- As many hexadecimal digits as asked for are read as their value. -/
theorem getHex_spec (n x : ℕ) (rest : List ℕ) : ∀ (num c : ℕ) (lex : MpLexer),
    Sees lex (c::((fixedHex n x).map UInt8.toNat++rest)) →
    ∃ lex' last,getHex n num lex=(lex',some (num*16^n+x%16^n))∧Sees lex' (last::rest)∧
      lex'.vstr=lex.vstr∧SameToken lex lex' := by
  induction n with
  | zero =>
    intro num c lex hsees
    refine ⟨lex,c,?_,hsees,rfl,SameToken.refl lex⟩
    rw [getHex,pow_zero,mul_one,mod_one,add_zero]
  | succ n ih =>
    intro num c lex hsees
    have hnext := hsees.nextChar
    have hdigit := hnext.chr0.1
    obtain ⟨hsame,hvstr⟩ := sameToken_nextChar lex
    obtain ⟨hhex,hvalue⟩ := hexDigit_spec (mod_lt (x/16^n) (by decide : 0<16))
    obtain ⟨lex',last,hget,hsees',hvstr',hsame'⟩ := ih (num*16+x/16^n%16) _ _ hnext
    refine ⟨lex',last,?_,hsees',hvstr'.trans hvstr,hsame.trans hsame'⟩
    rw [getHex,hdigit,if_pos hhex,hvalue,shiftLeft_eq,hget,pow_succ 16 n,mod_mul]
    congr 2
    ring

theorem reads_hex {n : ℕ} (hquote : quote≠92) (hpos : 0<n) (hroom : n≤16) (hv : v<16^n)
    (hout : kind=.string∧v<0x110000∧charBytes v=out∨kind=.bytes∧v<0x100∧[UInt8.ofNat v]=out)
    (hescape : ∀ lex : MpLexer,lex.chr0=e.toNat → lex.tokKind=kind →
      escapedChar lex=some (hexEscape n lex)) :
    Reads kind quote (92::e::printHex n v) out := by
  refine reads_escape hquote hout fun lex rest hsees hkind => ?_
  rw [printHex_eq hpos hroom hv] at hsees
  obtain ⟨lex',last,hget,hsees',hvstr,hsame⟩ := getHex_spec n v rest 0 _ lex hsees
  refine ⟨lex',last,?_,hsees',hvstr,hsame⟩
  rw [hescape lex hsees.chr0.1 hkind,hexEscape,hget,zero_mul,zero_add,mod_eq_of_lt hv]

/-! ## Pieces -/

/-- A first byte put together from bits. -/
theorem lor_lead : (∀ n<0x20,n|||0xC0=n+0xC0)∧(∀ n<0x10,n|||0xE0=n+0xE0)∧
    (∀ n<0x08,n|||0xF0=n+0xF0)∧∀ n<0x40,n|||0x80=n+0x80 := by
  decide

/-- A continuing byte put together from bits. -/
theorem contByte_eq (v : ℕ) : UInt8.ofNat (v&&&0x3F|||0x80)=contByte v := by
  have hbits : v&&&0x3F=v%0x40 := and_two_pow_sub_one_eq_mod v 6
  rw [hbits,lor_lead.2.2.2 _ (mod_lt v (by decide)),contByte]

/-- The bytes that are added for a character are its encoding. -/
theorem charBytes_eq (h : v<0x110000) : charBytes v=(ofCode v).bytes := by
  have h6 : v>>>6=v/64 := shiftRight_eq_div_pow v 6
  have h12 : v>>>12=v/4096 := shiftRight_eq_div_pow v 12
  have h18 : v>>>18=v/262144 := shiftRight_eq_div_pow v 18
  rw [charBytes,ofCode,contByte_eq,contByte_eq,contByte_eq,h6,h12,h18]
  split_ifs
  · rfl
  · omega
  · omega
  · omega
  · omega
  · rw [lor_lead.1 _ (by omega),←mod_eq_of_lt (by omega : v/64<0x20)]
    rfl
  · omega
  · omega
  · omega
  · omega
  · rw [lor_lead.2.1 _ (by omega),←mod_eq_of_lt (by omega : v/4096<0x10)]
    rfl
  · omega
  · omega
  · omega
  · omega
  · rw [lor_lead.2.2.1 _ (by omega),←mod_eq_of_lt (by omega : v/262144<0x08)]
    rfl

/-- A quote, seen as a byte. -/
theorem toNat_quote (hquote : quote=34∨quote=39) : (UInt8.ofNat quote).toNat=quote := by
  rcases hquote with rfl | rfl
  · rfl
  · rfl

/-- A quote after a backslash. -/
theorem escapedChar_quote (hquote : quote=34∨quote=39) (lex : MpLexer)
    (hchr0 : lex.chr0=(UInt8.ofNat quote).toNat) : escapedChar lex=some (lex,quote) := by
  rw [toNat_quote hquote] at hchr0
  rw [escapedChar,hchr0]
  rcases hquote with rfl | rfl
  · rfl
  · rfl

/-- A piece of the repr of a str is read as the encoding of the character. -/
theorem reads_uniPiece {ch : ℕ} (hquote : quote=34∨quote=39) (hch : ch<0x110000) :
    Reads .string quote (uniPiece quote ch) (charBytes ch) := by
  have hslash : quote≠92 := by omega
  have hout : TokenKind.string=.string∧ch<0x110000∧charBytes ch=charBytes ch∨
      TokenKind.string=.bytes∧ch<0x100∧[UInt8.ofNat ch]=charBytes ch := .inl ⟨rfl,hch,rfl⟩
  rw [uniPiece]
  split_ifs with h1 h2 h3 h4 h5 h6 h7 h8
  · rw [h1] at hout ⊢
    exact reads_simple hslash hout (escapedChar_quote hquote)
  · rw [h2] at hout ⊢
    exact reads_simple hslash hout fun lex hchr0 => by rw [escapedChar,hchr0]; rfl
  · have hascii : ch<0x80 := by omega
    have hvalue : (UInt8.ofNat ch).toNat=ch := by
      rw [UInt8.toNat_ofNat']
      omega
    rw [charBytes,if_pos hascii]
    refine reads_plain .string ?_ ?_ ?_
    · rw [hvalue]
      exact h1
    · rw [hvalue]
      exact h2
    · rw [hvalue]
      omega
  · rw [h4] at hout ⊢
    exact reads_simple hslash hout fun lex hchr0 => by rw [escapedChar,hchr0]; rfl
  · rw [h5] at hout ⊢
    exact reads_simple hslash hout fun lex hchr0 => by rw [escapedChar,hchr0]; rfl
  · rw [h6] at hout ⊢
    exact reads_simple hslash hout fun lex hchr0 => by rw [escapedChar,hchr0]; rfl
  · exact reads_hex hslash (by decide) (by decide) h7 hout
      fun lex hchr0 _ => by rw [escapedChar,hchr0]; rfl
  · refine reads_hex hslash (by decide) (by decide) h8 hout fun lex hchr0 hkind => ?_
    have hnot : ¬lex.tokKind=.bytes := by
      rw [hkind]
      exact fun h => by cases h
    rw [escapedChar,hchr0]
    exact if_neg hnot
  · have hlt : ch<16^8 := by omega
    refine reads_hex hslash (by decide) (by decide) hlt hout fun lex hchr0 hkind => ?_
    have hnot : ¬lex.tokKind=.bytes := by
      rw [hkind]
      exact fun h => by cases h
    rw [escapedChar,hchr0]
    exact if_neg hnot

/-- A piece of the repr of a bytes object is read as the byte. -/
theorem reads_strPiece (hquote : quote=34∨quote=39) (s : UInt8) :
    Reads .bytes quote (strPiece true quote s) [s] := by
  have hslash : quote≠92 := by omega
  have hout : TokenKind.bytes=.string∧s.toNat<0x110000∧charBytes s.toNat=[s]∨
      TokenKind.bytes=.bytes∧s.toNat<0x100∧[UInt8.ofNat s.toNat]=[s] :=
    .inr ⟨rfl,s.toNat_lt,by rw [UInt8.ofNat_toNat]⟩
  rw [strPiece]
  split_ifs with h1 h2 h3 h4 h5 h6
  · rw [h1] at hout
    exact reads_simple hslash hout (escapedChar_quote hquote)
  · rw [h2] at hout
    exact reads_simple hslash hout fun lex hchr0 => by rw [escapedChar,hchr0]; rfl
  · exact reads_plain .bytes h1 h2 (by omega)
  · rw [h4] at hout
    exact reads_simple hslash hout fun lex hchr0 => by rw [escapedChar,hchr0]; rfl
  · rw [h5] at hout
    exact reads_simple hslash hout fun lex hchr0 => by rw [escapedChar,hchr0]; rfl
  · rw [h6] at hout
    exact reads_simple hslash hout fun lex hchr0 => by rw [escapedChar,hchr0]; rfl
  · exact reads_hex hslash (by decide) (by decide) s.toNat_lt hout
      fun lex hchr0 _ => by rw [escapedChar,hchr0]; rfl

/-! ## Printed text -/

/-- Text that is printed between quotes: it does not begin with the quote and has no
characters but printable ones. -/
structure Printed (quote : ℕ) (piece : List UInt8) : Prop where
  /-- It does not begin with the quote. -/
  head : ∀ c,piece.head?=some c → c.toNat≠quote
  printable : ∀ c∈piece,32≤c.toNat∧c.toNat≤126

/-- Printed text in a row. -/
theorem Printed.append {piece piece' : List UInt8} (h : Printed quote piece)
    (h' : Printed quote piece') : Printed quote (piece++piece') where
  head := by
    cases piece with
    | nil => exact h'.head
    | cons c piece => exact h.head
  printable := fun c hc => (mem_append.mp hc).elim (h.printable c) (h'.printable c)

/-- Printed text for each element of a list. -/
theorem printed_flatMap {α : Type} {piece : α→List UInt8}
    (h : ∀ a,Printed quote (piece a)) (l : List α) : Printed quote (l.flatMap piece) := by
  induction l with
  | nil =>
    exact ⟨fun c hc => (nomatch hc),fun c hc => (nomatch hc)⟩
  | cons a l ih => exact (h a).append ih

/-- A backslash and printable characters after it. -/
theorem printed_escape {escape : List UInt8} (hslash : quote≠92)
    (h : ∀ c∈escape,32≤c.toNat∧c.toNat≤126) : Printed quote (92::escape) where
  head := by
    intro c hc
    cases hc
    exact hslash.symm
  printable := forall_mem_cons.mpr ⟨by decide,h⟩

theorem printable_fixedHex (n x : ℕ) : ∀ c∈fixedHex n x,32≤c.toNat∧c.toNat≤126 := by
  have hdigit : ∀ d : Fin 16,32≤(hexDigit d).toNat∧(hexDigit d).toNat≤126 := by decide +kernel
  induction n with
  | zero => exact fun c hc => nomatch hc
  | succ n ih =>
    exact forall_mem_cons.mpr ⟨hdigit ⟨x/16^n%16,mod_lt _ (by decide)⟩,ih⟩

/-- Hexadecimal digits after a letter. -/
theorem printable_hex {width x : ℕ} (hpos : 0<width) (hroom : width≤16)
    (hx : x<16^width) (he : 32≤e.toNat∧e.toNat≤126) :
    ∀ c∈e::printHex width x,32≤c.toNat∧c.toNat≤126 := by
  rw [printHex_eq hpos hroom hx]
  exact forall_mem_cons.mpr ⟨he,printable_fixedHex width x⟩

/-- The pieces of the repr of a str are printed text. -/
theorem printed_uniPiece {quote ch : ℕ} (hquote : quote=34∨quote=39) (hch : ch<0x110000) :
    Printed quote (uniPiece quote ch) := by
  have hslash : quote≠92 := by omega
  have hletter : ∀ c : UInt8,32≤c.toNat∧c.toNat≤126 → Printed quote [92,c] :=
    fun c hc => printed_escape hslash (forall_mem_singleton.mpr hc)
  rw [uniPiece]
  split_ifs with h1 h2 h3 h4 h5 h6 h7 h8
  · refine printed_escape hslash (forall_mem_singleton.mpr ?_)
    rw [toNat_quote hquote]
    omega
  · exact hletter _ (by decide)
  · have hvalue : (UInt8.ofNat ch).toNat=ch := by
      rw [UInt8.toNat_ofNat']
      omega
    constructor
    · intro c hc
      cases hc
      rw [hvalue]
      exact h1
    · refine forall_mem_singleton.mpr ?_
      rw [hvalue]
      exact h3
  · exact hletter _ (by decide)
  · exact hletter _ (by decide)
  · exact hletter _ (by decide)
  · exact printed_escape hslash (printable_hex (by decide) (by decide) h7 (by decide))
  · exact printed_escape hslash (printable_hex (by decide) (by decide) h8 (by decide))
  · exact printed_escape hslash (printable_hex (by decide) (by decide) (by omega) (by decide))

/-- The pieces of the repr of a bytes object are printed text. -/
theorem printed_strPiece (hquote : quote=34∨quote=39) (s : UInt8) :
    Printed quote (strPiece true quote s) := by
  have hslash : quote≠92 := by omega
  rw [strPiece]
  split_ifs with h1 h2 h3 h4 h5 h6
  · refine printed_escape hslash (forall_mem_singleton.mpr ?_)
    rw [toNat_quote hquote]
    omega
  · exact printed_escape hslash (forall_mem_singleton.mpr (by decide))
  · constructor
    · intro c hc
      cases hc
      exact h1
    · have hascii := h3.2.2.resolve_left (fun h => nomatch h)
      refine forall_mem_singleton.mpr ⟨h3.1,?_⟩
      omega
  · exact printed_escape hslash (forall_mem_singleton.mpr (by decide))
  · exact printed_escape hslash (forall_mem_singleton.mpr (by decide))
  · exact printed_escape hslash (forall_mem_singleton.mpr (by decide))
  · exact printed_escape hslash (printable_hex (by decide) (by decide) s.toNat_lt (by decide))

/-- The quote is a single or a double one. -/
theorem quoteChar_cases (strData : List UInt8) : quoteChar strData=34∨quoteChar strData=39 := by
  rw [quoteChar]
  split_ifs
  · exact .inl rfl
  · exact .inr rfl

/-- The loop over the characters of a str from one of them on. -/
theorem uniLoop_encode (quote : ℕ) (after : List Char) : ∀ (before : List Char) (rounds : ℕ),
    after.length ≤ rounds → uniLoop (encode (before++after)) quote rounds (encode before).length=
      some (after.flatMap fun c => uniPiece quote c.toNat) := by
  induction after with
  | nil =>
    intro before rounds _
    have hend : ¬(encode before).length<(encode (before++[])).length := by
      rw [append_nil]
      exact lt_irrefl _
    cases rounds with
    | zero => rw [uniLoop,if_neg hend,flatMap_nil]
    | succ rounds => rw [uniLoop,if_neg hend,flatMap_nil]
  | cons c after ih =>
    intro before rounds hrounds
    cases rounds with
    | zero => exact absurd hrounds (not_succ_le_zero _)
    | succ rounds =>
      have hdata : encode (before++c::after)=
          text (before.map ofChar++ofChar c::after.map ofChar) := by
        rw [encode,map_append,map_cons]
      have hbefore : encode before=text (before.map ofChar) := rfl
      have hnext : encode (before++[c])=text (before.map ofChar++[ofChar c]) := by
        rw [encode,map_append,map_singleton]
      have hrest := ih (before++[c]) rounds (le_of_succ_le_succ hrounds)
      rw [append_assoc,singleton_append] at hrest
      rw [hdata,hnext] at hrest
      rw [uniLoop,hdata,hbefore,if_pos length_lt_text,utf8GetChar_text,utf8NextChar_text,
        code_ofChar]
      show (do
        let rest ← uniLoop _ quote rounds (text (before.map ofChar++[ofChar c])).length
        pure (uniPiece quote c.toNat++rest))=_
      rw [hrest]
      rfl

theorem length_le_encode (cs : List Char) : cs.length≤(encode cs).length := by
  have hcount := countP_text (cs.map ofChar)
  rw [length_map] at hcount
  rw [←hcount]
  exact countP_le_length

/-- The repr of a str. -/
theorem uniPrintQuoted_encode (cs : List Char) :
    uniPrintQuoted (encode cs)=some (UInt8.ofNat (quoteChar (encode cs))::
      (cs.flatMap (fun c => uniPiece (quoteChar (encode cs)) c.toNat)++
        [UInt8.ofNat (quoteChar (encode cs))])) := by
  have hloop := uniLoop_encode (quoteChar (encode cs)) cs [] _ (length_le_encode cs)
  rw [nil_append] at hloop
  have hzero : (encode []).length=0 := rfl
  rw [hzero] at hloop
  rw [uniPrintQuoted,hloop]
  rfl

/-! ## Literals -/

/-- The lexer reads a text as one token of a kind with the given bytes, and after it comes
the end of the line and the end. -/
def SingleToken (optimise : ℕ) (str : List UInt8) (kind : TokenKind) (data : List UInt8) : Prop :=
  ∃ lex lex2 lex3,mpLexerNew optimise str=some lex∧lex.tokKind=kind∧lex.vstr=data∧
    mpLexerToNext optimise lex=some lex2∧lex2.tokKind=.newline∧
    mpLexerToNext optimise lex2=some lex3∧lex3.tokKind=.end

/-- A literal from its first quote on. -/
theorem parseStringLiteral_spec {body data : List UInt8}
    (hquote : quote=34∨quote=39) (hreads : Reads kind quote body data)
    (hprinted : Printed quote body)
    (hsees : Sees lex (quote::(body.map UInt8.toNat++[quote,10]))) (hkind : lex.tokKind=kind) :
    ∃ lex',parseStringLiteral lex false=some lex'∧Sees lex' [10]∧lex'.vstr=lex.vstr++data∧
      SameToken lex lex' := by
  have hquoteOf : quoteOf lex=quote := by
    rw [quoteOf,isChar,hsees.chr0.1]
    rcases hquote with rfl | rfl
    · rfl
    · rfl
  have hten : quote≠10 := by omega
  have hnotTriple : ¬isCharAnd (nextChar lex) quote quote=true := by
    intro h
    obtain ⟨h0,h1⟩ := of_decide_eq_true h
    have hnext := hsees.nextChar
    cases body with
    | nil => exact hten (h1.symm.trans hnext.chr1)
    | cons c body => exact hprinted.head c rfl (hnext.chr0.1.symm.trans h0)
  obtain ⟨hsame1,hvstr1⟩ := sameToken_nextChar lex
  obtain ⟨lex2,hloop,hsees2,hvstr2,hsame2⟩ := hreads (nextChar lex) [quote,10] hsees.nextChar
    (hsame1.tokKind.trans hkind)
  have hadded : Sees (vstrAddChar lex2 lex2.chr0) [quote,10] := hsees2.congr rfl rfl rfl rfl
  have hclose : literalLoop quote 1 false 0 lex2=some (1,nextChar (vstrAddChar lex2 lex2.chr0)) := by
    have hisQuote : isChar lex2 quote=true := decide_eq_true hsees2.chr0.1
    rw [literalLoop,dif_neg hsees2.not_isEnd,if_neg (goesOn hsees2 hten),if_pos hisQuote,
      literalLoop,dif_neg hadded.nextChar.not_isEnd]
    exact if_pos (.inr (lt_irrefl 1))
  obtain ⟨hsame3,hvstr3⟩ := sameToken_nextChar (vstrAddChar lex2 lex2.chr0)
  refine ⟨closeLiteral 1 1 (nextChar (vstrAddChar lex2 lex2.chr0)),?_,?_,?_,?_⟩
  · rw [parseStringLiteral,hquoteOf,if_neg hnotTriple,hloop,hclose]
    rfl
  · exact hadded.nextChar.congr rfl rfl rfl rfl
  · have hone : charBytes lex2.chr0=[UInt8.ofNat quote] := by
      rw [hsees2.chr0.1,charBytes,if_pos (by omega)]
    show (nextChar (vstrAddChar lex2 lex2.chr0)).vstr.take
      ((nextChar (vstrAddChar lex2 lex2.chr0)).vstr.length-1)=_
    rw [hvstr3,vstrAddChar]
    show (lex2.vstr++charBytes lex2.chr0).take ((lex2.vstr++charBytes lex2.chr0).length-1)=_
    rw [hone,length_append,length_singleton,Nat.add_sub_cancel,take_left,hvstr2,hvstr1]
  · have hadd : SameToken lex2 (vstrAddChar lex2 lex2.chr0) := ⟨rfl,rfl,rfl,rfl,rfl⟩
    have hcut : SameToken (nextChar (vstrAddChar lex2 lex2.chr0))
        (closeLiteral 1 1 (nextChar (vstrAddChar lex2 lex2.chr0))) := ⟨rfl,rfl,rfl,rfl,rfl⟩
    exact hsame1.trans (hsame2.trans (hadd.trans (hsame3.trans hcut)))

/-- At the end of a line no literal follows. -/
theorem literals_newline (h : Sees lex (10::rest)) : literals lex=some lex := by
  have hnone : ¬isStringOrBytes lex=true := by
    rw [isStringOrBytes,isCharOr,isCharOr3,isCharAnd,isCharAnd,h.chr0.1]
    exact Bool.false_ne_true
  rw [literals,dif_neg hnone]

theorem skipWhitespace_newline (h : Sees lex (10::rest))
    (hlevel : lex.nestedBracketLevel=0) : skipWhitespace lex true=(false,lex) := by
  have hnewline : isPhysicalNewline lex=true := decide_eq_true h.chr0.1
  rw [skipWhitespace,skipWhitespaceLoop,dif_neg h.not_isEnd,if_pos hnewline,if_pos ⟨rfl,hlevel⟩]

/-- A single literal on a line. -/
theorem literals_single {lex2 : MpLexer} {isRaw : Bool} {nChar : ℕ}
    (hstart : isStringOrBytes lex=true) (hkind : lex.tokKind=.end)
    (hcodes : typeCodes lex=(isRaw,kind,nChar))
    (hparse : parseStringLiteral (skipTypeCodes nChar {lex with tokKind := kind}) isRaw=some lex2)
    (hsees : Sees lex2 [10]) (hlevel : lex2.nestedBracketLevel=0) : literals lex=some lex2 := by
  have hliteral : literal kind lex=some lex2 := by
    rw [literal,hcodes,hparse]
    show some (skipWhitespace lex2 true).2=_
    rw [skipWhitespace_newline hsees hlevel]
  rw [literals,dif_pos hstart,if_pos (.inl hkind),hcodes]
  split
  case h_1 lex3 h =>
    rw [hliteral] at h
    cases h
    exact literals_newline hsees
  case h_2 h =>
    rw [hliteral] at h
    cases h

/-- The end of the last line is a token. -/
theorem mpLexerToNext_newline (optimise : ℕ) (hsees : Sees lex [10]) (hdent : lex.emitDent=0)
    (hlevel : lex.nestedBracketLevel=0) (hindent : lex.indentLevel=[0]) :
    ∃ lex2,mpLexerToNext optimise lex=some lex2∧lex2.tokKind=.newline∧Sees lex2 []∧
      lex2.emitDent=0 := by
  have hempty : Sees {lex with vstr := []} [10] := hsees.congr rfl rfl rfl rfl
  obtain ⟨hsame,_⟩ := sameToken_nextChar {lex with vstr := []}
  have hnext := hempty.nextChar
  have hcolumn := column_newline hempty.chr0.1
  generalize hnew : nextChar {lex with vstr := []}=new at hsame hnext hcolumn
  have hspace : skipWhitespace {lex with vstr := []} false=(true,new) := by
    have hnewline : isPhysicalNewline {lex with vstr := []}=true := decide_eq_true hempty.chr0.1
    have hend : isEnd new=true := decide_eq_true hnext.atEnd
    rw [skipWhitespace,skipWhitespaceLoop,dif_neg hempty.not_isEnd,if_pos hnewline,
      if_neg (fun h => Bool.false_ne_true h.1),hnew,skipWhitespaceLoop,dif_pos hend]
  have hdent2 : new.emitDent=0 := hsame.emitDent.trans hdent
  have hlevel2 : new.nestedBracketLevel=0 := hsame.nestedBracketLevel.trans hlevel
  have hindent2 : new.indentLevel=[0] := hsame.indentLevel.trans hindent
  have hfirst : mpLexerToNext optimise lex=some {new with
      tokLine := new.line
      tokColumn := new.column
      tokKind := .newline} := by
    rw [mpLexerToNext,hspace]
    dsimp only
    rw [hdent2,if_neg (Int.lt_irrefl 0),if_neg (Int.lt_irrefl 0),if_pos ⟨rfl,hlevel2⟩,newline,
      indentTop]
    dsimp only
    rw [hcolumn,hindent2]
    rfl
  exact ⟨_,hfirst,rfl,hnext.congr rfl rfl rfl rfl,hdent2⟩

/-- The end is a token. -/
theorem mpLexerToNext_end (optimise : ℕ) (hsees : Sees lex []) (hdent : lex.emitDent=0) :
    ∃ lex2,mpLexerToNext optimise lex=some lex2∧lex2.tokKind=.end := by
  have hend : isEnd {lex with vstr := []}=true := decide_eq_true hsees.atEnd
  have hend2 : isEnd {lex with
      tokLine := lex.line
      tokColumn := lex.column
      vstr := []}=true := hend
  have hlast : mpLexerToNext optimise lex=some {lex with
      tokLine := lex.line
      tokColumn := lex.column
      tokKind := .end
      vstr := []} := by
    rw [mpLexerToNext,skipWhitespace,skipWhitespaceLoop,dif_pos hend]
    dsimp only
    rw [hdent,if_neg (Int.lt_irrefl 0),if_neg (Int.lt_irrefl 0),
      if_neg (fun h => Bool.false_ne_true h.1)]
    exact if_pos hend2
  exact ⟨_,hlast,rfl⟩

/-- The lexer with the place of its token and no text. -/
def beginToken (lex : MpLexer) (kind : TokenKind) : MpLexer :=
  {lex with
    tokLine := lex.line
    tokColumn := lex.column
    tokKind := kind
    vstr := []}

/-- The first token of a text that begins with a literal. -/
theorem mpLexerToNext_literal (optimise : ℕ) (hc : c=34∨c=39∨c=98)
    (hsees : Sees lex (c::rest)) (hstart : isStringOrBytes (beginToken lex .end)=true)
    (hdent : lex.emitDent=0) : mpLexerToNext optimise lex=literals (beginToken lex .end) := by
  have hempty : Sees {lex with vstr := []} (c::rest) := hsees.congr rfl rfl rfl rfl
  have hnotEnd : ¬isEnd {lex with
      tokLine := lex.line
      tokColumn := lex.column
      vstr := []}=true := hsees.not_isEnd
  have hneg : ¬lex.emitDent<0 := by
    rw [hdent]
    exact Int.lt_irrefl 0
  have hpos : ¬0<lex.emitDent := by
    rw [hdent]
    exact Int.lt_irrefl 0
  rw [mpLexerToNext,skipWhitespace_start hempty (by omega)]
  dsimp only
  rw [if_neg hneg,if_neg hpos,if_neg (fun h => Bool.false_ne_true h.1),if_neg hnotEnd]
  exact if_pos hstart

/-- A text that is one literal is one token. -/
theorem singleToken (optimise : ℕ) {str data : List UInt8} {nChar : ℕ}
    (hc : c=34∨c=39∨c=98) (hsees : Sees (loadedLexer str) (c::rest))
    (hstart : ∀ lex,Sees lex (c::rest) → isStringOrBytes lex=true∧typeCodes lex=(false,kind,nChar))
    (hparse : ∀ lex,Sees lex (c::rest) → lex.tokKind=kind → ∃ lex2,
      parseStringLiteral (skipTypeCodes nChar lex) false=some lex2∧Sees lex2 [10]∧
      lex2.vstr=lex.vstr++data∧SameToken lex lex2) : SingleToken optimise str kind data := by
  obtain ⟨hblank,_,hcolumn⟩ := loadedLexer_fields str
  generalize hloaded : loadedLexer str=lex0 at hsees hblank hcolumn
  have hbegin : ∀ kind,Sees (beginToken lex0 kind) (c::rest) := fun kind =>
    hsees.congr rfl rfl rfl rfl
  obtain ⟨hliteral,hcodes⟩ := hstart _ (hbegin .end)
  obtain ⟨lex,hlex,hline,hvstr,hsame⟩ := hparse _ (hbegin kind) rfl
  have hdent : lex.emitDent=0 := hsame.emitDent.trans hblank.emitDent
  have hlevel : lex.nestedBracketLevel=0 :=
    hsame.nestedBracketLevel.trans hblank.nestedBracketLevel
  have hindent : lex.indentLevel=[0] := hsame.indentLevel.trans hblank.indentLevel
  have htokColumn : lex.tokColumn=1 := hsame.tokColumn.trans hcolumn
  have hfirst : mpLexerToNext optimise lex0=some lex := by
    rw [mpLexerToNext_literal optimise hc hsees hliteral hblank.emitDent]
    exact literals_single hliteral rfl hcodes hlex hline hlevel
  have hnew : mpLexerNew optimise str=some lex := by
    rw [mpLexerNew,hloaded,hfirst,Option.map_some,if_neg (fun h => h htokColumn)]
  obtain ⟨lex2,hsecond,hkind2,hend,hdent2⟩ :=
    mpLexerToNext_newline optimise hline hdent hlevel hindent
  obtain ⟨lex3,hthird,hkind3⟩ := mpLexerToNext_end optimise hend hdent2
  exact ⟨lex,lex2,lex3,hnew,hsame.tokKind,hvstr,hsecond,hkind2,hthird,hkind3⟩

/-- The characters of printed text within quotes. -/
theorem textChars_quoted {body : List UInt8} (hquote : quote=34∨quote=39)
    (hprinted : Printed quote body) (front : List UInt8)
    (hfront : ∀ c∈front,c.toNat≠13∧c.toNat≠10) :
    textChars (front++UInt8.ofNat quote::(body++[UInt8.ofNat quote]))=
      front.map UInt8.toNat++quote::(body.map UInt8.toNat++[quote,10]) := by
  have hplain : (UInt8.ofNat quote).toNat≠13∧(UInt8.ofNat quote).toNat≠10 := by
    rw [toNat_quote hquote]
    omega
  have hbody : ∀ c∈body,c.toNat≠13∧c.toNat≠10 := by
    intro c hc
    have hrange := hprinted.printable c hc
    omega
  rw [textChars_plain]
  · rw [map_append,map_cons,map_append,map_singleton,toNat_quote hquote,
      append_assoc,cons_append,append_assoc,singleton_append]
  · intro c hc
    rcases mem_append.mp hc with hc | hc
    · exact hfront c hc
    · rcases mem_cons.mp hc with rfl | hc
      · exact hplain
      · rcases mem_append.mp hc with hc | hc
        · exact hbody c hc
        · rw [mem_singleton.mp hc]
          exact hplain

/-- Where a str literal begins. -/
theorem start_str (hquote : quote=34∨quote=39)
    (hsees : Sees lex (quote::rest)) : isStringOrBytes lex=true∧
      typeCodes lex=(false,.string,0) := by
  rw [isStringOrBytes,typeCodes,isCharOr,isChar,isChar,isChar,hsees.chr0.1]
  rcases hquote with rfl | rfl
  · exact ⟨rfl,rfl⟩
  · exact ⟨rfl,rfl⟩

/-- Where a bytes literal begins. -/
theorem start_bytes (hquote : quote=34∨quote=39)
    (hsees : Sees lex (98::quote::rest)) : isStringOrBytes lex=true∧
      typeCodes lex=(false,.bytes,1) := by
  rw [isStringOrBytes,typeCodes,isCharOr3,isCharFollowingOr,isCharFollowing,isChar,isChar,
    isChar,hsees.chr0.1,hsees.chr1]
  rcases hquote with rfl | rfl
  · exact ⟨Bool.or_eq_true_iff.mpr (.inl (Bool.or_eq_true_iff.mpr (.inr rfl))),rfl⟩
  · exact ⟨Bool.or_eq_true_iff.mpr (.inl (Bool.or_eq_true_iff.mpr (.inr rfl))),rfl⟩

/-- The repr of every str and of every bytes object is read back as one token with what it
is the repr of. -/
theorem repr_lexes (optimise : ℕ) : (∀ cs : List Char,∃ str,uniPrintQuoted (encode cs)=some str∧
      SingleToken optimise str .string (encode cs))∧
    ∀ data : List UInt8,SingleToken optimise (strPrint data) .bytes data := by
  constructor
  · intro cs
    refine ⟨_,uniPrintQuoted_encode cs,?_⟩
    have hquote := quoteChar_cases (encode cs)
    have hreads : Reads .string (quoteChar (encode cs))
        (cs.flatMap fun c => uniPiece (quoteChar (encode cs)) c.toNat) (encode cs) := by
      have hpieces := reads_flatMap (l := cs)
        fun c _ => reads_uniPiece hquote (toNat_lt c)
      have hout : cs.flatMap (fun c => charBytes c.toNat)=encode cs := by
        rw [encode,text,List.flatMap_map]
        exact List.flatMap_congr fun c _ => charBytes_eq (toNat_lt c)
      rwa [hout] at hpieces
    have hprinted := printed_flatMap
      (fun c => @printed_uniPiece _ (Char.toNat c) hquote (toNat_lt c)) cs
    have hchars := textChars_quoted hquote hprinted [] (fun c hc => nomatch hc)
    have hsees := sees_loadedLexer (UInt8.ofNat (quoteChar (encode cs))::
        (cs.flatMap (fun c => uniPiece (quoteChar (encode cs)) c.toNat)++
          [UInt8.ofNat (quoteChar (encode cs))]))
    rw [List.nil_append] at hchars
    rw [hchars] at hsees
    refine singleToken optimise (by omega) hsees (fun lex h => start_str hquote h) ?_
    intro lex h hkind
    exact parseStringLiteral_spec hquote hreads hprinted h hkind
  · intro data
    have hquote := quoteChar_cases data
    have hreads : Reads .bytes (quoteChar data)
        (data.flatMap (strPiece true (quoteChar data))) data := by
      have hpieces := reads_flatMap (l := data) fun s _ => reads_strPiece hquote s
      have hout : data.flatMap (fun s => [s])=data := List.flatMap_singleton' data
      rwa [hout] at hpieces
    have hprinted := printed_flatMap (printed_strPiece hquote) data
    have hchars := textChars_quoted hquote hprinted [98] (List.forall_mem_singleton.mpr (by decide))
    have hsees := sees_loadedLexer (strPrint data)
    rw [strPrint,mpStrPrintQuoted,←List.singleton_append (x := (98 : UInt8)),hchars] at hsees
    refine singleToken optimise (.inr (.inr rfl)) hsees (fun lex h => start_bytes hquote h) ?_
    intro lex h hkind
    obtain ⟨hsame,hvstr⟩ := sameToken_nextChar lex
    obtain ⟨lex2,hparse,hline,hvstr2,hsame2⟩ := parseStringLiteral_spec hquote hreads hprinted
      h.nextChar (hsame.tokKind.trans hkind)
    refine ⟨lex2,hparse,hline,?_,hsame.trans hsame2⟩
    rw [hvstr2,hvstr]

end MicroPython.PrintQuoted
