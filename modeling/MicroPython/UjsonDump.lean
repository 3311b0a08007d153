import MicroPython.UjsonLoad

/-!
# Dumping an object and loading it again

An object is printed as JSON by the functions of its own and of the objects in it. What they
print of an object without decimal numbers, whose dictionaries have strings as keys, is a
text of the grammar that stands for the object, and so it is loaded as that object. Memory
and stack are as large as they need to be: `MP_STACK_CHECK` is empty unless a port asks for it.
-/

namespace MicroPython.UjsonDump

open List JsonText Ujson UjsonLoad NumberText PrintQuoted

variable {φ : Type} (floatPrint : φ→List UInt8)

/-! ## Printing -/

/-- What `mp_str_print_json` prints for a byte. -/
def jsonPiece (s : UInt8) : List UInt8 :=
  if s=34∨s=92 then [92,s]
  else if 32 ≤ s then [s]
  else if s=10 then [92,110]
  else if s=13 then [92,114]
  else if s=9 then [92,116]
  else 92::117::printHex 4 s.toNat

/-- `mp_str_print_json` -/
def mpStrPrintJson (strData : List UInt8) : List UInt8 :=
  34::(strData.flatMap jsonPiece++[34])

/-- `bool_print` with the kind `PRINT_JSON`. -/
def boolPrint (value : Bool) : List UInt8 :=
  if value then [116,114,117,101] else [102,97,108,115,101]

mutual

/-- `mp_obj_print_helper` with the kind `PRINT_JSON`. -/
def mpObjPrintHelper : Data φ→List UInt8
  | .none => [110,117,108,108]
  | .bool value => boolPrint value
  | .int i => (mpObjIntPrint i).map UInt8.ofNat
  | .float x => floatPrint x
  | .str strData => mpStrPrintJson strData
  | .list items => 91::(listPrint true items++[93])
  | .dict pairs => 123::(dictPrint true pairs++[125])

/-- The loop of `list_print`. -/
def listPrint : Bool→List (Data φ)→List UInt8
  | _,[] => []
  | first,item::items =>
    (if first then [] else [44,32])++(mpObjPrintHelper item++listPrint false items)

/-- The loop of `dict_print`. -/
def dictPrint : Bool→List (Data φ×Data φ)→List UInt8
  | _,[] => []
  | first,(key,value)::pairs =>
    (if first then [] else [44,32])++(mpObjPrintHelper key++(58::32::
      (mpObjPrintHelper value++dictPrint false pairs)))

end

/-- `dumps` -/
def modUjsonDumps (obj : Data φ) : List UInt8 := mpObjPrintHelper floatPrint obj

/-! ## The objects that are dumped -/

mutual

/-- An object is built from nothing, truth values, integers, strings, lists and dictionaries
with strings as keys. -/
def Plain : Data φ→Prop
  | .float _ => False
  | .list items => PlainItems items
  | .dict pairs => PlainPairs pairs∧(pairs.map Prod.fst).Nodup
  | _ => True

/-- The items of a list are built so. -/
def PlainItems : List (Data φ)→Prop
  | [] => True
  | item::items => Plain item∧PlainItems items

/-- The keys of a dictionary are strings and its values are built so. -/
def PlainPairs : List (Data φ×Data φ)→Prop
  | [] => True
  | (key,value)::pairs => ((∃ s,key=.str s)∧Plain value)∧PlainPairs pairs

end

/-! ## Strings and integers -/

/-- A digit of the form of `%04x`. -/
def lowerDigit (v : Fin 16) : HexDigit := ⟨v,false⟩

/-- The piece of a string that is printed for a byte. -/
def pieceOf (s : UInt8) : Piece :=
  if h : 32 ≤ s∧s≠34∧s≠92 then .plain s h
  else if s=34 then .escape .quote
  else if s=92 then .escape .backslash
  else if s=10 then .escape .n
  else if s=13 then .escape .r
  else if s=9 then .escape .t
  else .unicode (lowerDigit 0) (lowerDigit 0) (lowerDigit (Fin.ofNat 16 (s.toNat/16)))
    (lowerDigit (Fin.ofNat 16 s.toNat))

theorem pieceOf_spec (s : UInt8) : (pieceOf s).text=jsonPiece s∧(pieceOf s).bytes=[s] :=
  Unicode.forall_byte (p:=fun s => (pieceOf s).text=jsonPiece s∧(pieceOf s).bytes=[s])
    (by decide +kernel) s

theorem exists_pieces (strData : List UInt8) :
    ∃ ps,stringText ps=mpStrPrintJson strData∧decodeUnits ps=strData := by
  refine ⟨strData.map pieceOf,?_,?_⟩
  · rw [stringText,mpStrPrintJson,flatMap_map]
    simp only [fun s => (pieceOf_spec s).1]
  · rw [decodeUnits,flatMap_map]
    simp only [fun s => (pieceOf_spec s).2]
    exact flatMap_singleton' strData

/-- Digits above the last one do not begin with a zero. -/
theorem head_decimalLoop (fuel : ℕ) : ∀ n≤fuel,n≠0 → ∀ str : List ℕ,
    ∃ c rest,decimalLoop fuel n str=c::rest∧c≠48 := by
  induction fuel with
  | zero => exact fun n hn hne => absurd (Nat.le_zero.mp hn) hne
  | succ fuel ih =>
    intro n hn hne str
    rw [decimalLoop,if_neg hne]
    by_cases hlast : n/10=0
    · refine ⟨48+n%10,str,?_,by omega⟩
      rw [hlast]
      cases fuel <;> rfl
    · exact ih (n/10) (by omega) hlast _

/-- An integer is printed as a number that stands for it. -/
theorem exists_number (i : ℤ) : ∃ n : Number,n.text=(mpObjIntPrint i).map UInt8.ofNat∧
    n.isInt=true∧n.hasPlus=false∧n.intValue=i := by
  obtain ⟨digits,hne,hdigits,_,hloop⟩ := decimalDigits_spec i.natAbs
  have hbyte (c : ℕ) (hc : IsDigit c) :
      JsonText.isDigit (UInt8.ofNat c)=true∧(UInt8.ofNat c).toNat=c := by
    have hall : ∀ c : Fin 58,48≤c.val → JsonText.isDigit (UInt8.ofNat c)=true∧
        (UInt8.ofNat c).toNat=c := by decide +kernel
    exact hall ⟨c,Nat.lt_succ_of_le hc.2⟩ hc.1
  have hlead : (digits.map UInt8.ofNat).head?=some 48 → (digits.map UInt8.ofNat).length=1 := by
    intro hhead
    by_cases hsmall : i.natAbs/10=0
    · rw [hsmall] at hloop
      have hone : decimalLoop i.natAbs 0 [48+i.natAbs%10]=[48+i.natAbs%10] := by
        cases i.natAbs <;> rfl
      rw [←hloop,hone]
      rfl
    · obtain ⟨c,rest,hcons,hc⟩ :=
        head_decimalLoop i.natAbs (i.natAbs/10) (by omega) hsmall [48+i.natAbs%10]
      rw [hloop] at hcons
      have hcdigit := hbyte c (hdigits c (by rw [hcons]; exact mem_cons_self))
      rw [hcons,map_cons,List.head?_cons,Option.some_inj] at hhead
      rw [hhead] at hcdigit
      exact absurd hcdigit.2.symm hc
  obtain ⟨n,hn⟩ : ∃ n : Number,n=⟨decide (i<0),⟨digits.map UInt8.ofNat,
      fun h => hne (map_eq_nil_iff.mp h),fun c hc => by
        obtain ⟨d,hd,rfl⟩ := mem_map.mp hc
        exact (hbyte d (hdigits d hd)).1⟩,hlead,none,none⟩ := ⟨_,rfl⟩
  have hprint : mpObjIntPrint i=if i<0 then 45::digits else digits := by
    rw [mpObjIntPrint,hloop]
  have htext : n.text=(mpObjIntPrint i).map UInt8.ofNat := by
    rw [hprint,hn,Number.text,Number.intText,fracText,expText,append_nil,append_nil]
    by_cases hneg : i<0
    · rw [if_pos hneg,decide_eq_true hneg]
      rfl
    · rw [if_neg hneg,decide_eq_false hneg]
      rfl
  refine ⟨n,htext,by rw [hn]; rfl,by rw [hn]; rfl,?_⟩
  have hback : n.intText.map UInt8.toNat=mpObjIntPrint i := by
    have hint : n.text=n.intText := by
      rw [hn,Number.text]
      exact append_nil _
    have hsame (c : ℕ) (hc : c∈mpObjIntPrint i) : (UInt8.toNat∘UInt8.ofNat) c=id c := by
      rw [hprint] at hc
      split at hc
      · cases mem_cons.mp hc with
        | inl hc =>
          rw [hc]
          rfl
        | inr hc => exact (hbyte c (hdigits c hc)).2
      · exact (hbyte c (hdigits c hc)).2
    rw [←hint,htext,map_map,map_congr_left hsame,map_id]
  have hparse := parse_intText 31 n
  rw [hback,mpParseNumInteger_mpObjIntPrint] at hparse
  exact (Option.some.inj hparse).symm

/-! ## Objects -/

variable {floatPrint}

theorem keys_eq_names (R : Reading φ) (ms : Members) :
    (ms.pairs R).map Prod.fst=(ms.names R).map Data.str := by
  cases ms with
  | last k w₁ w₂ v w₃ => rfl
  | more k w₁ w₂ v w₃ w₄ ms => exact congrArg (Data.str (R.string k)::·) (keys_eq_names R ms)

/-- A space. -/
def space : Ws := ⟨[32],fun c hc => by rw [List.mem_singleton.mp hc]; rfl⟩

variable (R : Runtime φ)

mutual

/-- What is printed for an object is a value that stands for it. -/
theorem exists_value (d : Data φ) (h : Plain d) : ∃ v : Value,
    v.text=mpObjPrintHelper floatPrint d∧v.noPlus∧v.data (units R)=d := by
  cases d with
  | none => exact ⟨.null,rfl,trivial,rfl⟩
  | bool b => exact ⟨.bool b,rfl,trivial,rfl⟩
  | int i =>
    obtain ⟨n,htext,hint,hplus,hvalue⟩ := exists_number i
    refine ⟨.number n,htext,hplus,?_⟩
    rw [Value.data,if_pos hint,hvalue]
  | float x => exact h.elim
  | str s =>
    obtain ⟨ps,htext,hvalue⟩ := exists_pieces s
    exact ⟨.string ps,htext,trivial,congrArg Data.str hvalue⟩
  | list items =>
    cases items with
    | nil => exact ⟨.emptyArray .nil,rfl,trivial,rfl⟩
    | cons item items =>
      obtain ⟨es,htext,hplus,hdata⟩ := exists_elements (item::items) h (cons_ne_nil _ _)
      refine ⟨.array .nil es,?_,hplus,congrArg Data.list hdata⟩
      rw [Value.text,htext]
      rfl
  | dict pairs =>
    cases pairs with
    | nil => exact ⟨.emptyObject .nil,rfl,trivial,rfl⟩
    | cons p pairs =>
      obtain ⟨ms,htext,hplus,hpairs⟩ := exists_members (p::pairs) h.1 (cons_ne_nil _ _)
      have hnodup : (ms.names (units R)).Nodup := by
        have hkeys := h.2
        rw [←hpairs,keys_eq_names] at hkeys
        exact (pairwise_map.mp hkeys).imp fun hne heq => hne (congrArg Data.str heq)
      refine ⟨.object .nil ms,?_,hplus,congrArg Data.dict ?_⟩
      · rw [Value.text,htext]
        rfl
      · rw [members_of_nodup (R:=units R) puts_store ms [] (fun _ hp => nomatch hp) hnodup,hpairs]
        rfl

/-- What is printed for items are elements that stand for them. -/
theorem exists_elements (items : List (Data φ)) (h : PlainItems items) (hne : items≠[]) :
    ∃ es : Elements,es.text=listPrint floatPrint true items∧es.noPlus∧es.data (units R)=items := by
  cases items with
  | nil => exact absurd rfl hne
  | cons item items =>
    obtain ⟨v,htext,hplus,hdata⟩ := exists_value item h.1
    cases items with
    | nil =>
      refine ⟨.last v .nil,?_,hplus,?_⟩
      · rw [Elements.text,htext]
        rfl
      · rw [Elements.data,hdata]
    | cons next items =>
      obtain ⟨es,htext',hplus',hdata'⟩ :=
        exists_elements (next::items) h.2 (cons_ne_nil _ _)
      refine ⟨.more v .nil space es,?_,⟨hplus,hplus'⟩,?_⟩
      · rw [Elements.text,htext,htext']
        rfl
      · rw [Elements.data,hdata,hdata']

/-- What is printed for the pairs of a dictionary are members that stand for them. -/
theorem exists_members (pairs : List (Data φ×Data φ)) (h : PlainPairs pairs)
    (hne : pairs≠[]) : ∃ ms : Members,
    ms.text=dictPrint floatPrint true pairs∧ms.noPlus∧ms.pairs (units R)=pairs := by
  cases pairs with
  | nil => exact absurd rfl hne
  | cons p pairs =>
    cases p with
    | mk key value =>
      obtain ⟨⟨⟨s,hkey⟩,hvalue⟩,hpairs⟩ := h
      obtain ⟨v,htext,hplus,hdata⟩ := exists_value value hvalue
      obtain ⟨ps,hps,hname⟩ := exists_pieces s
      have hstring : (units R).string ps=s := hname
      cases pairs with
      | nil =>
        refine ⟨.last ps .nil space v .nil,?_,hplus,?_⟩
        · rw [Members.text,htext,hps,hkey]
          rfl
        · rw [Members.pairs,hdata,hstring,hkey]
      | cons next pairs =>
        obtain ⟨ms,htext',hplus',hpairs'⟩ :=
          exists_members (next::pairs) hpairs (cons_ne_nil _ _)
        refine ⟨.more ps .nil space v .nil space ms,?_,⟨hplus,hplus'⟩,?_⟩
        · rw [Members.text,htext,hps,hkey,htext']
          rfl
        · rw [Members.pairs,hdata,hstring,hkey,hpairs']

end

end MicroPython.UjsonDump
