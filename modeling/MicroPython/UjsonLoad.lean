import MicroPython.Ujson

/-!
# Loading a JSON text

What the loader of `ujson` makes of the texts of the grammar.
-/

namespace MicroPython.UjsonLoad

open List JsonText Ujson Lexer NumberText

variable {φ : Type} {R : Runtime φ} {st : State φ} {cur : UInt8} {s s' : List UInt8}

/-! ## A plus sign in an exponent -/

/-- A number with a plus sign in its exponent is not accepted. -/
theorem number_fails {n : Number} (h : n.hasPlus=true) (hst : Ready st) (rest : List UInt8) :
    ∃ e,loadLoop R st (n.text++rest)=.error e := by
  obtain ⟨cur,tail,htext,hcur,⟨e,htoken⟩ | ⟨d,s,htoken⟩⟩ := token_plus (R:=R) h rest
  · refine ⟨e,?_⟩
    rw [htext,cons_append]
    refine loadLoop_error hcur ?_
    rw [turn,htoken]
  · refine ⟨.syntaxError,?_⟩
    rw [htext,cons_append,loadLoop_next hcur hst htoken]
    exact loadLoop_error (by decide) rfl

mutual

/-- A value with such a number is not accepted. -/
theorem value_fails (v : Value) (hplus : ¬v.noPlus) (st : State φ) (hst : Ready st)
    (rest : List UInt8) : ∃ e,loadLoop R st (v.text++rest)=.error e := by
  cases v with
  | null => exact absurd trivial hplus
  | bool b => exact absurd trivial hplus
  | string s => exact absurd trivial hplus
  | emptyArray w => exact absurd trivial hplus
  | emptyObject w => exact absurd trivial hplus
  | number n => exact number_fails (Bool.of_not_eq_false hplus) hst rest
  | array w es =>
    rw [Value.text,cons_append,append_assoc,append_assoc,
      loadLoop_enter (by decide) hst rfl,loadLoop_ws]
    obtain ⟨stack,frame,henter,_⟩ := enter_eq (R:=R) hst
    rw [henter]
    exact elements_fails es hplus _ [] _
  | object w ms =>
    rw [Value.text,cons_append,append_assoc,append_assoc,
      loadLoop_enter (by decide) hst rfl,loadLoop_ws]
    obtain ⟨stack,frame,henter,_⟩ := enter_eq (R:=R) hst
    rw [henter]
    exact members_fails ms hplus _ [] _

/-- Elements with such a number are not accepted. -/
theorem elements_fails (es : Elements) (hplus : ¬es.noPlus) (stack : List (Frame φ))
    (items : List (Data φ)) (rest : List UInt8) :
    ∃ e,loadLoop R ⟨stack,some (.list items),none⟩ (es.text++rest)=.error e := by
  cases es with
  | last v w =>
    rw [Elements.text,append_assoc]
    exact value_fails v hplus _ (ready_list _ _) _
  | more v w w' es =>
    rw [Elements.text,append_assoc]
    by_cases hv : v.noPlus
    · rw [append_assoc,cons_append,append_assoc,
        value_loaded v hv _ (ready_list _ _) _ (stops_ws w (stops_cons (c:=44) rfl _)),
        loadLoop_ws,loadLoop_skip (.inl rfl),loadLoop_ws,put]
      exact elements_fails es (fun hes => hplus ⟨hv,hes⟩) _ _ rest
    · exact value_fails v hv _ (ready_list _ _) _

/-- Members with such a number are not accepted. -/
theorem members_fails (ms : Members) (hplus : ¬ms.noPlus) (stack : List (Frame φ))
    (pairs : List (Data φ×Data φ)) (rest : List UInt8) :
    ∃ e,loadLoop R ⟨stack,some (.dict pairs),none⟩ (ms.text++rest)=.error e := by
  cases ms with
  | last k w₁ w₂ v w₃ =>
    rw [Members.text,append_assoc,loadLoop_key,append_assoc,loadLoop_ws,
      cons_append,loadLoop_skip (.inr (.inl rfl)),append_assoc,loadLoop_ws,
      append_assoc]
    exact value_fails v hplus _ (ready_dict _ _ _) _
  | more k w₁ w₂ v w₃ w₄ ms =>
    rw [Members.text,append_assoc,loadLoop_key,append_assoc,loadLoop_ws,
      cons_append,loadLoop_skip (.inr (.inl rfl)),append_assoc,loadLoop_ws,
      append_assoc]
    by_cases hv : v.noPlus
    · rw [append_assoc,cons_append,append_assoc,
        value_loaded v hv _ (ready_dict _ _ _) _ (stops_ws w₃ (stops_cons (c:=44) rfl _)),
        loadLoop_ws,loadLoop_skip (.inl rfl),loadLoop_ws,put]
      exact members_fails ms (fun hms => hplus ⟨hv,hms⟩) _ _ rest
    · exact value_fails v hv _ (ready_dict _ _ _) _

end

/-! ## The outermost value -/

/-- Only whitespace comes after the outermost value. -/
theorem finish_ws (w : Ws) (d : Data φ) (key : Option (Data φ)) :
    finish ⟨[],some d,key⟩ w.text=.ok d := by
  have hall (c : UInt8) : isWs c=true → unicharIsspace c.toNat=true :=
    Unicode.forall_byte (p:=fun c => isWs c=true → unicharIsspace c.toNat=true)
      (by decide +kernel) c
  have hspace : w.text.dropWhile (fun c => unicharIsspace c.toNat)=[] :=
    dropWhile_eq_nil_iff.mpr fun c hc => hall c (w.ws c hc)
  rw [finish,hspace]
  rfl

/-- The outermost container is entered. -/
theorem loadLoop_outer {d : Data φ} (hcur : cur≠0) (h : token R cur s=.ok (.next d true,s')) :
    loadLoop R ⟨[],none,none⟩ (cur::s)=loadLoop R ⟨[],some d,none⟩ s' := by
  refine loadLoop_goesOn hcur ?_
  rw [turn_next h]
  rfl

/-- The outermost container is closed. -/
theorem loadLoop_finish (hcur : cur=125∨cur=93) (d : Data φ) (w : Ws) :
    loadLoop R ⟨[],some d,none⟩ (cur::w.text)=.ok d := by
  have hne : cur≠0 := by
    rcases hcur with rfl | rfl <;> decide
  have hturn : turn R ⟨[],some d,none⟩ cur w.text=.ok (.ends ⟨[],some d,none⟩ w.text) := by
    rw [turn_close hcur]
    rfl
  rw [loadLoop_ends hne hturn,finish_ws]

/-- A text is an array or an object. -/
theorem text_cases (t : Text) {p : Prop} (hemptyArray : ∀ w,t.value=.emptyArray w → p)
    (harray : ∀ w es,t.value=.array w es → p) (hemptyObject : ∀ w,t.value=.emptyObject w → p)
    (hobject : ∀ w ms,t.value=.object w ms → p) : p := by
  have hcompound := t.compound
  cases hv : t.value with
  | emptyArray w => exact hemptyArray w hv
  | array w es => exact harray w es hv
  | emptyObject w => exact hemptyObject w hv
  | object w ms => exact hobject w ms hv
  | null =>
    rw [hv] at hcompound
    rcases hcompound with h | h <;> cases h
  | bool b =>
    rw [hv] at hcompound
    cases b <;> rcases hcompound with h | h <;> cases h
  | string s =>
    rw [hv] at hcompound
    rcases hcompound with h | h <;> cases h
  | number n =>
    obtain ⟨cur,tail,hint,hcur⟩ := exists_intText n
    rw [hv,Value.text,Number.text,hint,cons_append,List.head?_cons,Option.some_inj,
      Option.some_inj] at hcompound
    rcases hcompound with rfl | rfl <;> rcases hcur with h | h <;> cases h

/-- A text without a plus sign in an exponent is accepted. -/
theorem load_text (t : Text) (hplus : t.value.noPlus) :
    modUjsonLoad R t.text=.ok (t.value.data (units R)) := by
  rw [modUjsonLoad,Text.text,loadLoop_ws]
  refine text_cases t (fun w hv => ?_) (fun w es hv => ?_) (fun w hv => ?_) (fun w ms hv => ?_)
  · rw [hv,Value.text,cons_append,append_assoc,loadLoop_outer (by decide) rfl,loadLoop_ws]
    exact loadLoop_finish (.inr rfl) _ _
  · rw [hv] at hplus
    rw [hv,Value.text,cons_append,append_assoc,append_assoc,
      loadLoop_outer (by decide) rfl,loadLoop_ws,singleton_append,
      elements_loaded es hplus _ [] _ (stops_cons (c:=93) rfl _)]
    exact loadLoop_finish (.inr rfl) _ _
  · rw [hv,Value.text,cons_append,append_assoc,loadLoop_outer (by decide) rfl,loadLoop_ws]
    exact loadLoop_finish (.inl rfl) _ _
  · rw [hv] at hplus
    rw [hv,Value.text,cons_append,append_assoc,append_assoc,
      loadLoop_outer (by decide) rfl,loadLoop_ws,singleton_append,
      members_loaded ms hplus _ [] _ (stops_cons (c:=125) rfl _)]
    exact loadLoop_finish (.inl rfl) _ _

/-- A text with a plus sign in an exponent is not accepted. -/
theorem load_plus (t : Text) (hplus : ¬t.value.noPlus) :
    ∃ e,modUjsonLoad R t.text=.error e := by
  rw [modUjsonLoad,Text.text,loadLoop_ws]
  refine text_cases t (fun w hv => ?_) (fun w es hv => ?_) (fun w hv => ?_) (fun w ms hv => ?_)
  · rw [hv] at hplus
    exact absurd trivial hplus
  · rw [hv] at hplus
    rw [hv,Value.text,cons_append,append_assoc,append_assoc,
      loadLoop_outer (by decide) rfl,loadLoop_ws]
    exact elements_fails es hplus _ [] _
  · rw [hv] at hplus
    exact absurd trivial hplus
  · rw [hv] at hplus
    rw [hv,Value.text,cons_append,append_assoc,append_assoc,
      loadLoop_outer (by decide) rfl,loadLoop_ws]
    exact members_fails ms hplus _ [] _

/-- A value that is no container is the outermost one. -/
theorem loadLoop_only {d : Data φ} (hcur : cur≠0) (h : token R cur s=.ok (.next d false,[])) :
    loadLoop R ⟨[],none,none⟩ (cur::s)=.ok d := by
  have hturn : turn R ⟨[],none,none⟩ cur s=.ok (.ends ⟨[],some d,none⟩ []) := by
    rw [turn_next h]
    rfl
  rw [loadLoop_ends hcur hturn]
  exact finish_ws .nil d none

/-- A value without a plus sign in an exponent is accepted, also where it is no container. -/
theorem load_value (v : Value) (hplus : v.noPlus) :
    modUjsonLoad R v.text=.ok (v.data (units R)) := by
  have hcompound (h : v.text.head?=some 91∨v.text.head?=some 123) :
      modUjsonLoad R v.text=.ok (v.data (units R)) := by
    have hload := load_text (R:=R) ⟨.nil,v,h,.nil⟩ hplus
    have htext : v.text++[]=v.text := append_nil _
    rw [←htext]
    exact hload
  cases v with
  | null => exact loadLoop_only (by decide) rfl
  | bool b =>
    obtain ⟨cur,tail,htext,hcur,htoken⟩ := token_bool (R:=R) b []
    rw [append_nil] at htoken
    rw [modUjsonLoad,htext]
    exact loadLoop_only hcur htoken
  | number n =>
    obtain ⟨cur,tail,htext,hcur,htoken⟩ :=
      token_numberText (R:=R) hplus (fun c hc => nomatch hc : Stops [])
    rw [append_nil] at htoken
    rw [modUjsonLoad,Value.text,htext]
    exact loadLoop_only hcur htoken
  | string s => exact loadLoop_only (by decide) (token_string s [])
  | emptyArray w => exact hcompound (.inl rfl)
  | array w es => exact hcompound (.inl rfl)
  | emptyObject w => exact hcompound (.inr rfl)
  | object w ms => exact hcompound (.inr rfl)

/-! ## What a text denotes -/

/-- A dictionary takes its members as JSON has it. -/
theorem puts_store : Puts (mpObjDictStore R) where
  cases pairs k d := by
    induction pairs with
    | nil => exact .inl rfl
    | cons p pairs ih =>
      rw [mpObjDictStore]
      split
      · exact .inr rfl
      · rcases ih with h | h
        · rw [h]
          exact .inl rfl
        · exact .inr (congrArg (·+1) h)
  new pairs s d h := by
    induction pairs with
    | nil => rfl
    | cons p pairs ih =>
      obtain ⟨s',hs',hne⟩ := h p mem_cons_self
      have hdiff : ¬R.mpObjEqual p.1 (.str s)=true := by
        rw [hs',R.equal_str,decide_eq_true_iff]
        exact hne
      rw [mpObjDictStore,if_neg hdiff,ih fun p' hp' => h p' (mem_cons_of_mem _ hp')]
      rfl

/-- What a text denotes: a pair of escaped surrogates is one character. -/
def denoted (R : Runtime φ) (t : Text) : Data φ :=
  t.value.data (paired R.float (mpObjDictStore R))

/-- A number ends with a digit. -/
theorem getLast_number (n : Number) : ∃ c,n.text.getLast?=some c∧JsonText.isDigit c=true := by
  have hdigits (front : List UInt8) (ds : Digits) :
      ∃ c,(front++ds.text).getLast?=some c∧JsonText.isDigit c=true := by
    refine ⟨ds.text.getLast ds.ne,?_,ds.digits _ (getLast_mem _)⟩
    rw [List.getLast?_append_of_ne_nil _ ds.ne,List.getLast?_eq_some_getLast ds.ne]
  rw [Number.text]
  cases n.exp with
  | some e =>
    rw [expText,Exponent.text,←cons_append,←append_assoc,←append_assoc]
    exact hdigits _ e.digits
  | none =>
    rw [expText,append_nil]
    cases n.frac with
    | some ds =>
      rw [fracText,←singleton_append,←append_assoc]
      exact hdigits _ ds
    | none =>
      rw [fracText,append_nil]
      exact hdigits _ n.int

/-- A runtime whose decimal numbers are their texts. A text that ends in an exponent without
digits is none. -/
def texts : Runtime (List UInt8) where
  mpParseNumDecimal s := if (s.getLast?.any JsonText.isDigit) then some s else none
  float n := n.text
  reads n _ := by
    obtain ⟨c,hlast,hc⟩ := getLast_number n
    rw [hlast]
    exact if_pos hc
  mpObjEqual d e :=
    match d,e with
    | .str s,.str t => decide (s=t)
    | _,_ => false
  equal_str _ _ := rfl
  smallIntBits := 31

/-- One digit. -/
def oneDigit (c : UInt8) (h : JsonText.isDigit c=true) : Digits where
  text := [c]
  ne := List.cons_ne_nil _ _
  digits c' hc' := by
    rw [List.mem_singleton.mp hc']
    exact h

/-- `1e5`, or with a sign in front of the exponent. -/
def oneE (sign : Sign) : Number where
  minus := false
  int := oneDigit 49 rfl
  lead h := nomatch h
  frac := none
  exp := some ⟨false,sign,oneDigit 53 rfl⟩

/-- `[1e5]`, or with a sign in front of the exponent. -/
def arrayOneE (sign : Sign) : Text :=
  ⟨.nil,.array .nil (.last (.number (oneE sign)) .nil),.inl rfl,.nil⟩

end MicroPython.UjsonLoad
