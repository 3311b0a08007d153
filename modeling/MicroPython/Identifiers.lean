import MicroPython.LexerAdvance
import MicroPython.QstrTable

/-!
# Identifiers as qstrs

The parser interns the text of each name token. Between the buffer of the lexer and the
byte that keeps the length of a qstr there is only an assertion, which is not compiled in.
-/

namespace MicroPython.Identifiers

open List BlockHeap InputMachine Lexer LexerAdvance LexerStream Qstr QstrTable Unicode

variable {vm vm' : Vm} {strs : List (List ℕ)} {ans : Answers} {lex : MpLexer} {q : ℕ}

/-- The text of a token as bytes. -/
def bytesOf (lex : MpLexer) : List ℕ := lex.vstr.map UInt8.toNat

/-- The qstr that push_result_token gets for a token, or MP_QSTR_NULL if it needs none.
Literals of more than MICROPY_ALLOC_PARSE_INTERN_STRING_LEN bytes are only searched for. -/
def pushResultToken (vm : Vm) (lex : MpLexer) (ans : Answers) : Vm×Except ℕ ℕ :=
  if lex.tokKind=.name then qstrFromStrn vm (bytesOf lex) ans
  else if lex.tokKind=.string∨lex.tokKind=.bytes then
    if (bytesOf lex).length≤10 then qstrFromStrn vm (bytesOf lex) ans
    else (vm,.ok (qstrFindStrn vm (bytesOf lex)))
  else (vm,.ok 0)

/-- A token with the lexer before it. -/
structure SourceToken where
  before : MpLexer
  lex : MpLexer

/-- A token of a source text. -/
def SourceToken.Of (optimise : ℕ) (tok : SourceToken) : Prop :=
  ∃ text,Token optimise text tok.before tok.lex

/-- The parser pushes a token. Without memory it stops. -/
def push (vm : Vm) (input : SourceToken×Answers) : Except ℕ (Vm×ℕ) :=
  match pushResultToken vm input.1.lex input.2 with
  | (vm,.ok q) => .ok (vm,q)
  | (_,.error bytes) => .error bytes

/-- Identifiers are told apart by their qstrs, and can be read from them. -/
structure Identifies (vm : Vm) (received : List (SourceToken×ℕ)) : Prop where
  /-- Two identifiers have the same qstr exactly when they are spelled in the same way. -/
  same : ∀ c∈received,∀ d∈received,c.1.lex.tokKind=.name → d.1.lex.tokKind=.name →
    (c.2=d.2↔spelling c.1.before=spelling d.1.before)
  text : ∀ c∈received,c.1.lex.tokKind=.name → qstrData vm c.2=some (spelling c.1.before)

theorem push_eq_ok {input : SourceToken×Answers} (h : push vm input=.ok (vm',q)) :
    pushResultToken vm input.1.lex input.2=(vm',.ok q) := by
  rw [push] at h
  split at h
  case h_1 vm₁ q₁ heq =>
    cases h
    exact heq
  case h_2 => cases h

/-- The outcomes of qstr_from_strn when it does not raise. -/
theorem qstrFromStrn_ok (h : Inv vm strs) {str : List ℕ}
    (hok : qstrFromStrn vm str ans=(vm',.ok q)) :
    ∃ more,Inv vm' (strs++more)∧(256 ≤ str.length → ∃ i,q=i+1∧(strs++more)[i]?=some str) := by
  have hid : (qstrFromStrn vm str ans).2=.ok q := congrArg Prod.snd hok
  have hspec := qstrFromStrn_spec h (not_losesChunk_of_ok hid)
  rw [hok] at hspec
  rcases hspec with ⟨n,herror,_⟩ | ⟨hne,heq⟩ | ⟨_,hnew,hinv⟩
  · cases herror
  · cases heq
    refine ⟨[],?_,fun hlong => absurd (h.table.find_long hlong) hne⟩
    rw [append_nil]
    exact h
  · refine ⟨[str],hinv,fun _ => ⟨strs.length,Except.ok.inj hnew,?_⟩⟩
    rw [List.getElem?_append_right (le_refl _),Nat.sub_self]
    rfl

/-- Pushing a token keeps the strings of the table. A long name gets a number of its own. -/
theorem push_inv (h : Inv vm strs) {input : SourceToken×Answers}
    (hpush : push vm input=.ok (vm',q)) : ∃ more,Inv vm' (strs++more)∧
      (input.1.lex.tokKind=.name → 256≤(bytesOf input.1.lex).length →
        ∃ i,q=i+1∧(strs++more)[i]?=some (bytesOf input.1.lex)) := by
  have hok := push_eq_ok hpush
  rw [pushResultToken] at hok
  split_ifs at hok with hname hstring hshort
  · obtain ⟨more,hinv,hlong⟩ := qstrFromStrn_ok h hok
    exact ⟨more,hinv,fun _ => hlong⟩
  · obtain ⟨more,hinv,_⟩ := qstrFromStrn_ok h hok
    exact ⟨more,hinv,fun hkind => absurd hkind hname⟩
  · cases hok
    refine ⟨[],?_,fun hkind => absurd hkind hname⟩
    rw [append_nil]
    exact h
  · cases hok
    refine ⟨[],?_,fun hkind => absurd hkind hname⟩
    rw [append_nil]
    exact h

/-- Pushing tokens keeps the strings of the table. Each long name has a number of its own. -/
theorem run_push_inv (toks : List (SourceToken×Answers)) : ∀ {vm : Vm} {strs : List (List ℕ)},
    Inv vm strs → ∀ {vm' : Vm} {ids : List ℕ},run push vm toks=.ok (vm',ids) →
      ∃ more,Inv vm' (strs++more)∧∀ c∈(toks.map Prod.fst).zip ids,c.1.lex.tokKind=.name →
        256≤(bytesOf c.1.lex).length →
          ∃ i,c.2=i+1∧(strs++more)[i]?=some (bytesOf c.1.lex) := by
  induction toks with
  | nil =>
    intro vm strs h vm' ids hrun
    cases hrun
    refine ⟨[],?_,fun c hc => absurd hc not_mem_nil⟩
    rw [append_nil]
    exact h
  | cons input toks ih =>
    intro vm strs h vm' ids hrun
    obtain ⟨mid,id,ids',hpush,hrest,hids⟩ := run_cons_eq_ok.mp hrun
    obtain ⟨more,hinv,hlong⟩ := push_inv h hpush
    obtain ⟨more',hinv',hlong'⟩ := ih hinv hrest
    rw [append_assoc] at hinv' hlong'
    refine ⟨more++more',hinv',fun c hc hname hlen => ?_⟩
    rw [hids,map_cons,zip_cons_cons] at hc
    rcases mem_cons.mp hc with hfirst | hlater
    · rw [hfirst] at hname hlen ⊢
      obtain ⟨i,hi,hstr⟩ := hlong hname hlen
      refine ⟨i,hi,?_⟩
      have hlt := (List.getElem?_eq_some_iff.mp hstr).1
      rw [←append_assoc,List.getElem?_append_left hlt]
      exact hstr
    · exact hlong' c hlater hname hlen

section Short

variable {pool : Interning.Pool (List ℕ)}

/-- A short string is interned. -/
theorem qstrFromStrn_holding (h : Holding vm pool) {str : List ℕ} (hshort : str.length<256)
    (hok : qstrFromStrn vm str ans=(vm',.ok q)) :
    ∃ pool',pool≤pool'∧Holding vm' pool'∧str∈pool'.items∧q=pool'.number str := by
  have hid : (qstrFromStrn vm str ans).2=.ok q := congrArg Prod.snd hok
  obtain ⟨pool',hle,hholding,hnumber⟩ :=
    (qstrFromStrn_interns h.inv h.short (not_losesChunk_of_ok hid)).grow h.short hshort
  rw [hok] at hholding hnumber
  exact ⟨pool',hle,hholding,hnumber q rfl⟩

/-- Pushing a token that is no long name keeps the numbers of all strings. -/
theorem push_holding (h : Holding vm pool) {input : SourceToken×Answers}
    (hshort : input.1.lex.tokKind=.name → (bytesOf input.1.lex).length<256)
    (hpush : push vm input=.ok (vm',q)) : ∃ pool',pool≤pool'∧Holding vm' pool'∧
      (input.1.lex.tokKind=.name →
        bytesOf input.1.lex∈pool'.items∧q=pool'.number (bytesOf input.1.lex)) := by
  have hok := push_eq_ok hpush
  rw [pushResultToken] at hok
  split_ifs at hok with hname hstring hlen
  · obtain ⟨pool',hle,hholding,hnumber⟩ := qstrFromStrn_holding h (hshort hname) hok
    exact ⟨pool',hle,hholding,fun _ => hnumber⟩
  · have hlt : (bytesOf input.1.lex).length<256 := by omega
    obtain ⟨pool',hle,hholding,_⟩ := qstrFromStrn_holding h hlt hok
    exact ⟨pool',hle,hholding,fun hkind => absurd hkind hname⟩
  · cases hok
    exact ⟨pool,le_refl pool,h,fun hkind => absurd hkind hname⟩
  · cases hok
    exact ⟨pool,le_refl pool,h,fun hkind => absurd hkind hname⟩

/-- Where no name is long, each of them has its number in the pool. -/
theorem run_push_holding (toks : List (SourceToken×Answers)) :
    ∀ {vm : Vm} {pool : Interning.Pool (List ℕ)},Holding vm pool →
    (∀ tok∈toks,tok.1.lex.tokKind=.name → (bytesOf tok.1.lex).length<256) →
    ∀ {vm' : Vm} {ids : List ℕ},run push vm toks=.ok (vm',ids) →
      ∃ pool',pool≤pool'∧Holding vm' pool'∧∀ c∈(toks.map Prod.fst).zip ids,c.1.lex.tokKind=.name →
          bytesOf c.1.lex∈pool'.items∧c.2=pool'.number (bytesOf c.1.lex) := by
  induction toks with
  | nil =>
    intro vm pool h _ vm' ids hrun
    cases hrun
    exact ⟨pool,le_refl pool,h,fun c hc => absurd hc not_mem_nil⟩
  | cons input toks ih =>
    intro vm pool h hshort vm' ids hrun
    obtain ⟨mid,id,ids',hpush,hrest,hids⟩ := run_cons_eq_ok.mp hrun
    obtain ⟨pool₁,hle₁,hholding₁,hid₁⟩ :=
      push_holding h (hshort input mem_cons_self) hpush
    obtain ⟨pool₂,hle₂,hholding₂,hid₂⟩ :=
      ih hholding₁ (fun tok htok => hshort tok (mem_cons_of_mem _ htok)) hrest
    refine ⟨pool₂,le_trans hle₁ hle₂,hholding₂,fun c hc hname => ?_⟩
    rw [hids,map_cons,zip_cons_cons] at hc
    rcases mem_cons.mp hc with hfirst | hlater
    · rw [hfirst] at hname ⊢
      obtain ⟨hmem,hq⟩ := hid₁ hname
      refine ⟨Interning.Pool.mem_of_le hle₂ hmem,?_⟩
      rw [Interning.Pool.number_eq_of_le hle₂ hmem]
      exact hq
    · exact hid₂ c hlater hname

end Short

section Letters

variable {rest : List ℕ}

/-- A token that begins with the letter a is a name or a keyword. -/
theorem mpLexerToNext_letter (optimise : ℕ) (h : Sees lex (97::rest)) (hdent : lex.emitDent=0) :
    mpLexerToNext optimise lex=some (name optimise {lex with
      tokLine := lex.line
      tokColumn := lex.column
      vstr := []}) := by
  have hempty : Sees {lex with vstr := []} (97::rest) := h.congr rfl rfl rfl rfl
  have hnotEnd : ¬isEnd {lex with
      tokLine := lex.line
      tokColumn := lex.column
      vstr := []}=true := h.not_isEnd
  have hneg : ¬lex.emitDent<0 := by
    rw [hdent]
    exact Int.lt_irrefl 0
  have hpos : ¬0<lex.emitDent := by
    rw [hdent]
    exact Int.lt_irrefl 0
  have hstring : ¬isStringOrBytes {lex with
      tokLine := lex.line
      tokColumn := lex.column
      vstr := []}=true := by
    rw [isStringOrBytes,isCharOr,isCharOr3,isCharAnd,isCharAnd]
    rw [h.chr0.1]
    exact Bool.false_ne_true
  have hhead : isHeadOfIdentifier {lex with
      tokLine := lex.line
      tokColumn := lex.column
      vstr := []}=true := by
    rw [isHeadOfIdentifier,isLetter]
    dsimp only
    rw [h.chr0.1]
    rfl
  rw [mpLexerToNext,skipWhitespace_start hempty (by decide)]
  dsimp only
  rw [if_neg hneg,if_neg hpos,if_neg (fun h => Bool.false_ne_true h.1),if_neg hnotEnd,
    if_neg hstring]
  exact if_pos hhead

/-- The letters a up to the end of the line. -/
theorem takeWhile_letters (n : ℕ) :
    (97::(List.replicate n 97++[10])).takeWhile isTail=List.replicate (n+1) 97 := by
  have hall : ∀ c∈List.replicate (n+1) 97,isTail c=true := by
    intro c hc
    rw [eq_of_mem_replicate hc]
    decide
  have hend : [10].takeWhile isTail=[] := by decide
  have happend := @takeWhile_append_of_pos _ isTail (List.replicate (n+1) 97) [10] hall
  rw [hend,append_nil] at happend
  exact happend

section

variable (optimise n : ℕ) (hkw : findKeyword (List.replicate (n+1) 97) tokKw=none)
  (h : Sees lex (97::(List.replicate n 97++[10])))
include hkw h

/-- Letters a that are no keyword are a name. -/
theorem name_letters (hvstr : lex.vstr=[]) :
    (name optimise lex).tokKind=.name∧(name optimise lex).tokColumn=lex.tokColumn∧
      (name optimise lex).vstr=List.replicate (n+1) 97 := by
  have hhead : isHeadOfIdentifier lex=true := by
    rw [isHeadOfIdentifier,isLetter,h.chr0.1]
    rfl
  have htext : (name optimise lex).vstr=List.replicate (n+1) 97 := by
    rw [(name_spec optimise hhead h.not_isEnd hvstr h).2,takeWhile_letters]
    exact map_replicate
  have htail : ∀ lex : MpLexer,SameToken lex (nameTail lex) := by
    intro lex
    fun_induction nameTail lex with
    | case1 lex hend =>
      exact .refl lex
    | case2 lex hend htail ih =>
      have hadd : SameToken lex (vstrAddByte lex lex.chr0) := ⟨rfl,rfl,rfl,rfl,rfl⟩
      exact (hadd.trans (sameToken_nextChar _).1).trans ih
    | case3 lex hend htail =>
      exact .refl lex
  have hadd : SameToken lex (vstrAddByte lex lex.chr0) := ⟨rfl,rfl,rfl,rfl,rfl⟩
  have hsame := (hadd.trans (sameToken_nextChar _).1).trans (htail (nextChar (vstrAddByte lex lex.chr0)))
  revert htext
  rw [name]
  split
  case h_1 kind hfound =>
    intro htext
    rw [show (nameTail (nextChar (vstrAddByte lex lex.chr0))).vstr=List.replicate (n+1) 97
      from htext,hkw] at hfound
    cases hfound
  case h_2 =>
    intro htext
    exact ⟨rfl,hsame.tokColumn,htext⟩

/-- The first token of a line of letters a. -/
theorem mpLexerToNext_letters (hdent : lex.emitDent=0) :
    spelling lex=List.replicate (n+1) 97∧∃ lex',mpLexerToNext optimise lex=some lex'∧
      lex'.tokKind=.name∧lex'.tokColumn=lex.column∧lex'.vstr=List.replicate (n+1) 97 := by
  have hempty : Sees {lex with vstr := []} (97::(List.replicate n 97++[10])) :=
    h.congr rfl rfl rfl rfl
  have hbegin : Sees {lex with
      tokLine := lex.line
      tokColumn := lex.column
      vstr := []} (97::(List.replicate n 97++[10])) := h.congr rfl rfl rfl rfl
  constructor
  · rw [spelling,tokenStart,skipWhitespace_start hempty (by decide),hempty.stream_eq,
      takeWhile_letters]
  · exact ⟨_,mpLexerToNext_letter optimise h hdent,name_letters optimise n hkw hbegin rfl⟩

end

end Letters

/-- A text of letters a that is no keyword is a name token. -/
theorem token_letters (optimise n : ℕ) (hkw : findKeyword (List.replicate (n+1) 97) tokKw=none) :
    ∃ tok : SourceToken,tok.Of optimise∧tok.lex.tokKind=.name∧
      spelling tok.before=List.replicate (n+1) 97∧bytesOf tok.lex=List.replicate (n+1) 97 := by
  have hmap : (List.replicate (n+1) (97 : UInt8)).map UInt8.toNat=List.replicate (n+1) 97 :=
    map_replicate
  have hchars : textChars (List.replicate (n+1) 97)=97::(List.replicate n 97++[10]) := by
    rw [textChars_plain,hmap]
    · rfl
    · intro c hc
      rw [eq_of_mem_replicate hc]
      decide
  have hsees := sees_loadedLexer (List.replicate (n+1) 97)
  rw [hchars] at hsees
  obtain ⟨hblank,_,hcolumn⟩ := loadedLexer_fields (List.replicate (n+1) 97)
  obtain ⟨hspelling,lex,hlex,hkind,htokColumn,hvstr⟩ :=
    mpLexerToNext_letters optimise n hkw hsees hblank.emitDent
  have hnew : mpLexerNew optimise (List.replicate (n+1) 97)=some lex := by
    rw [mpLexerNew,hlex,Option.map_some,if_neg (fun h => h (htokColumn.trans hcolumn))]
  have htoken : Token optimise (List.replicate (n+1) 97) (loadedLexer (List.replicate (n+1) 97))
      lex := .first hnew
  have hbytes : bytesOf lex=List.replicate (n+1) 97 := by
    rw [bytesOf,hvstr,hmap]
  revert hspelling htoken
  generalize loadedLexer (List.replicate (n+1) 97)=before
  intro hspelling htoken
  exact ⟨⟨before,lex⟩,⟨List.replicate (n+1) 97,htoken⟩,hkind,hspelling,hbytes⟩

theorem push_name {input : SourceToken×Answers} (hkind : input.1.lex.tokKind=.name)
    {str : List ℕ} (hstr : bytesOf input.1.lex=str)
    (h : (qstrFromStrn vm str input.2).2=.ok q) :
    push vm input=.ok ((qstrFromStrn vm str input.2).1,q) := by
  rw [push,pushResultToken,if_pos hkind,hstr]
  revert h
  generalize qstrFromStrn vm str input.2=r
  intro h
  obtain ⟨vm₁,id⟩ := r
  rw [show id=.ok q from h]

/-- The qstrs of identifiers identify them exactly when all identifiers are shorter than 256
bytes. -/
theorem identifies_iff (rom : Rom) (memory : ℕ→ℕ) (heap : Heap) (optimise : ℕ)
    (toks : List (SourceToken×Answers)) (htoks : ∀ tok∈toks,tok.1.Of optimise)
    {ids : List ℕ} (hrun : run push (qstrInit rom memory heap) toks=.ok (vm,ids)) :
    Identifies vm ((toks.map Prod.fst).zip ids)↔
      ∀ tok∈toks,tok.1.lex.tokKind=.name → (spelling tok.1.before).length<256 := by
  have hstart := holding_qstrInit rom memory heap
  have hspelling : ∀ tok∈toks,tok.1.lex.tokKind=.name → bytesOf tok.1.lex=spelling tok.1.before := by
    intro tok htok hname
    obtain ⟨text,htoken⟩ := htoks tok htok
    exact htoken.vstr_eq hname
  have hreceived : ∀ c∈(toks.map Prod.fst).zip ids,c.1.lex.tokKind=.name →
      bytesOf c.1.lex=spelling c.1.before := by
    intro c hc hname
    obtain ⟨tok,htok,heq⟩ := List.mem_map.mp (List.of_mem_zip hc).1
    rw [←heq] at hname ⊢
    exact hspelling tok htok hname
  constructor
  · intro h tok htok hname
    by_contra hlong
    have hlen : 256≤(spelling tok.1.before).length := Nat.le_of_not_lt hlong
    obtain ⟨more,hinv,hids⟩ := run_push_inv toks hstart.inv hrun
    obtain ⟨i,hi⟩ := List.getElem?_of_mem htok
    have hlt : i < ids.length := by
      rw [←length_of_run hrun]
      exact (List.getElem?_eq_some_iff.mp hi).1
    have hmem : (tok.1,ids[i])∈(toks.map Prod.fst).zip ids := by
      refine List.mem_of_getElem? (i:=i) ?_
      rw [List.getElem?_zip_eq_some,List.getElem?_map,hi]
      exact ⟨rfl,List.getElem?_eq_getElem hlt⟩
    have htext := h.text _ hmem hname
    have hbytes := hspelling tok htok hname
    rw [←hbytes] at hlen htext
    obtain ⟨k,hk,hstr⟩ := hids _ hmem hname hlen
    obtain ⟨_,_,hread⟩ := hinv.table.read hstr
    rw [show ids[i]=k+1 from hk,hread] at htext
    have hlength := congrArg List.length (Option.some.inj htext)
    rw [List.length_take] at hlength
    omega
  · intro hshort
    have hbytes : ∀ tok∈toks,tok.1.lex.tokKind=.name → (bytesOf tok.1.lex).length<256 := by
      intro tok htok hname
      rw [hspelling tok htok hname]
      exact hshort tok htok hname
    obtain ⟨pool,_,hholding,hids⟩ := run_push_holding toks hstart hbytes hrun
    refine ⟨fun c hc d hd hcname hdname => ?_,fun c hc hname => ?_⟩
    · obtain ⟨hcmem,hcid⟩ := hids c hc hcname
      obtain ⟨hdmem,hdid⟩ := hids d hd hdname
      rw [hcid,hdid,←hreceived c hc hcname,←hreceived d hd hdname]
      constructor
      · intro hnumber
        have hitem := Interning.Pool.item_number hcmem
        rw [hnumber,Interning.Pool.item_number hdmem] at hitem
        exact (Option.some.inj hitem).symm
      · exact fun heq => congrArg pool.number heq
    · obtain ⟨hmem,hid⟩ := hids c hc hname
      obtain ⟨i,hi⟩ := List.getElem?_of_mem hmem
      obtain ⟨_,_,hread⟩ := hholding.inv.table.read hi
      rw [Nat.mod_eq_of_lt (hholding.short _ hmem),List.take_length] at hread
      rw [hid,Interning.Pool.number_of_getElem? hi,hread,hreceived c hc hname]

/-- The name a is pushed twice. -/
theorem identifies_iff_letter : ∃ tok : SourceToken,tok.Of 0∧tok.lex.tokKind=.name∧
    ∃ vm,Identifies vm [(tok,11),(tok,11)] := by
  obtain ⟨tok,hof,hkind,hspelling,hbytes⟩ := token_letters 0 0 (by decide)
  have hstr : bytesOf tok.lex=[97] := hbytes
  have hfirst := @push_name (qstrInit tenLetters (fun _ => 0) .empty) 11
    (tok,{onlyChunk 4096 with pool := ⟨[],some 8192⟩}) hkind [97] hstr rfl
  have hsecond := @push_name (qstrFromStrn (qstrInit tenLetters (fun _ => 0) .empty) [97]
    {onlyChunk 4096 with pool := ⟨[],some 8192⟩}).1 11 (tok,onlyChunk 0) hkind [97] hstr rfl
  have hrun := run_cons_eq_ok.mpr ⟨_,_,_,hfirst,run_cons_eq_ok.mpr ⟨_,_,_,hsecond,run_nil _,rfl⟩,rfl⟩
  have hall : ∀ p : SourceToken×Answers → Prop,
      p (tok,{onlyChunk 4096 with pool := ⟨[],some 8192⟩}) → p (tok,onlyChunk 0) →
      ∀ i∈[(tok,{onlyChunk 4096 with pool := ⟨[],some 8192⟩}),(tok,onlyChunk 0)],p i :=
    fun p h h' => List.forall_mem_cons.mpr ⟨h,List.forall_mem_singleton.mpr h'⟩
  have hshort : (spelling tok.before).length<256 := by
    rw [hspelling]
    decide
  exact ⟨tok,hof,hkind,_,(identifies_iff tenLetters (fun _ => 0) .empty 0 _
    (hall _ hof hof) hrun).mpr (hall _ (fun _ => hshort) (fun _ => hshort))⟩

/-- A name of 256 bytes has a qstr without text. -/
theorem not_identifies : ¬∀ (rom : Rom) (memory : ℕ→ℕ) (heap : Heap) (optimise : ℕ)
    (toks : List (SourceToken×Answers)),(∀ tok∈toks,tok.1.Of optimise) → ∀ vm ids,
    run push (qstrInit rom memory heap) toks=.ok (vm,ids) →
      Identifies vm ((toks.map Prod.fst).zip ids) := by
  intro h
  obtain ⟨tok,hof,hkind,hspelling,hbytes⟩ := token_letters 0 255 (by decide +kernel)
  have hcheck : (qstrFromStrn (qstrInit tenLetters (fun _ => 0) .empty) (List.replicate 256 97)
      {onlyChunk 4096 with pool := ⟨[],some 8192⟩}).2.toOption=some 11∧
      qstrData (qstrFromStrn (qstrInit tenLetters (fun _ => 0) .empty) (List.replicate 256 97)
        {onlyChunk 4096 with pool := ⟨[],some 8192⟩}).1 11=some [] := by decide +kernel
  obtain ⟨hid,hdata⟩ := hcheck
  have hok : (qstrFromStrn (qstrInit tenLetters (fun _ => 0) .empty) (List.replicate 256 97)
      {onlyChunk 4096 with pool := ⟨[],some 8192⟩}).2=.ok 11 := by
    revert hid
    generalize (qstrFromStrn _ _ _).2=r
    intro hid
    cases r with
    | error bytes => cases hid
    | ok id => exact congrArg Except.ok (Option.some.inj hid)
  have hpush := @push_name (qstrInit tenLetters (fun _ => 0) .empty) 11
    (tok,{onlyChunk 4096 with pool := ⟨[],some 8192⟩}) hkind _ hbytes hok
  have hrun := run_cons_eq_ok.mpr ⟨_,_,_,hpush,run_nil _,rfl⟩
  have hlawful := h tenLetters (fun _ => 0) .empty 0
    [(tok,{onlyChunk 4096 with pool := ⟨[],some 8192⟩})]
    (List.forall_mem_singleton.mpr hof) _ [11] hrun
  have htext := hlawful.text (tok,11) (.head _) hkind
  rw [hdata,hspelling] at htext
  cases htext

end MicroPython.Identifiers
