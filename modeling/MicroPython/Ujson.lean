import MicroPython.JsonText
import MicroPython.NumberText
import MicroPython.PrintQuoted

/-!
# The loader of JSON

The loader of `ujson` reads one character ahead and keeps the containers that are open on a
stack. Commas and colons are whitespace to it. A container is filled in place: here its
place in the container around it stays empty while it is open.
-/

namespace MicroPython.Ujson

open List JsonText Lexer NumberText

/-- What the loader calls: the parser of decimal numbers, and the comparison of the keys of a
dictionary. -/
structure Runtime (φ : Type) where
  /-- `mp_parse_num_decimal`. -/
  mpParseNumDecimal : List UInt8→Option φ
  /-- The value of a decimal number. -/
  float : Number→φ
  reads : ∀ n : Number,n.isInt=false → mpParseNumDecimal n.text=some (float n)
  /-- `mp_obj_equal`. -/
  mpObjEqual : Data φ→Data φ→Bool
  /-- Strings are the same when their bytes are. -/
  equal_str : ∀ s t,mpObjEqual (.str s) (.str t)=decide (s=t)
  smallIntBits : ℕ

/-- What the loader raises. -/
inductive Error
  /-- A `ValueError` with the text `syntax error in JSON`. -/
  | syntaxError
  /-- What the parser of a number raises. -/
  | number
deriving DecidableEq

variable {φ : Type} (R : Runtime φ)

/-- `mp_obj_dict_store`. -/
def mpObjDictStore : List (Data φ×Data φ)→Data φ→Data φ→List (Data φ×Data φ)
  | [],key,value => [(key,value)]
  | p::pairs,key,value =>
    if R.mpObjEqual p.1 key then (p.1,value)::pairs
    else p::mpObjDictStore pairs key value

/-- An open container around the one that is being filled, without its place for that. -/
inductive Frame (φ : Type)
  /-- A list, at the end of which the place is. -/
  | list (items : List (Data φ))
  | dict (pairs : List (Data φ×Data φ)) (key : Data φ)

/-- The container with its place filled. -/
def Frame.fill : Frame φ→Data φ→Data φ
  | .list items,d => .list (items++[d])
  | .dict pairs key,d => .dict (mpObjDictStore R pairs key d)

/-- The state of the loader between two characters. -/
structure State (φ : Type) where
  /-- The open containers around the one that is being filled. -/
  stack : List (Frame φ)
  /-- What is being filled, or a value that is no container. -/
  stackTop : Option (Data φ)
  /-- A key that waits for its value. -/
  stackKey : Option (Data φ)

/-- The character of a stream, of which the first byte is the current one. -/
def sCur (s : List UInt8) : UInt8 := s.headD 0

/-- The stream is at its end. -/
def sEnd (s : List UInt8) : Bool := sCur s=0

/-- What a character is worth as a hexadecimal digit. It is not checked to be one. -/
def hexValue (c : UInt8) : UInt8 :=
  let c := (c|||0x20)-48
  if 9<c then c-39 else c

/-- The number that four hexadecimal characters give, with the stream at the last of
them. -/
def hexLoop : ℕ→ℕ→List UInt8→ℕ×List UInt8
  | 0,num,s => (num,s)
  | i+1,num,s => hexLoop i (num<<<4|||(hexValue (sCur s.tail)).toNat) s.tail

/-- What an escape adds, and the stream after it, which begins with the character after the
backslash. -/
def escape (s : List UInt8) : List UInt8×List UInt8 :=
  let c := sCur s
  if c=98 then ([8],s.tail)
  else if c=102 then ([12],s.tail)
  else if c=110 then ([10],s.tail)
  else if c=114 then ([13],s.tail)
  else if c=116 then ([9],s.tail)
  else if c=117 then
    let r := hexLoop 4 0 s
    (charBytes r.1,r.2.tail)
  else ([c],s.tail)

/-- Four characters are not more than there are. -/
theorem length_hexLoop_le (i num : ℕ) (s : List UInt8) : (hexLoop i num s).2.length ≤ s.length := by
  induction i generalizing num s with
  | zero => exact Nat.le_refl _
  | succ i ih =>
    rw [hexLoop]
    refine Nat.le_trans (ih _ _) ?_
    rw [length_tail]
    omega

/-- An escape is not longer than the stream. -/
theorem length_escape_le (s : List UInt8) : (escape s).2.length ≤ s.length := by
  have hhex := length_hexLoop_le 4 0 s
  rw [escape]
  split_ifs <;> dsimp only <;> rw [length_tail] <;> omega

/-- The bytes of a string, and the stream at its end. -/
def strLoop (s : List UInt8) (vstr : List UInt8) : List UInt8×List UInt8 :=
  match s with
  | [] => (vstr,[])
  | c::s =>
    if c=0∨c=34 then (vstr,c::s)
    else if c=92 then strLoop (escape s).2 (vstr++(escape s).1)
    else strLoop s (vstr++[c])
termination_by s.length
decreasing_by
  · exact Nat.lt_succ_of_le (length_escape_le _)
  · exact Nat.lt_succ_self _

/-- The characters of a number, whether there is one of a decimal number among them, and the
stream after them. -/
def numLoop : List UInt8→List UInt8→Bool→List UInt8×Bool×List UInt8
  | [],vstr,flt => (vstr,flt,[])
  | c::s,vstr,flt =>
    if c=46∨c=69∨c=101 then numLoop s (vstr++[c]) true
    else if c=45∨isDigit c then numLoop s (vstr++[c]) flt
    else (vstr,flt,c::s)

/-- What a character begins. -/
inductive Token (φ : Type)
  | skip
  /-- A value, which is entered when it is a container. -/
  | next (d : Data φ) (enter : Bool)
  | close

/-- A word after its first character. -/
def word (text : List UInt8) (d : Data φ) (s : List UInt8) : Except Error (Token φ×List UInt8) :=
  if text.isPrefixOf s then .ok (.next d false,s.drop text.length) else .error .syntaxError

/-- A number after its first character. -/
def number (cur : UInt8) (s : List UInt8) : Except Error (Token φ×List UInt8) :=
  let r := numLoop s [cur] false
  if r.2.1 then
    match R.mpParseNumDecimal r.1 with
    | none => .error .number
    | some x => .ok (.next (.float x) false,r.2.2)
  else
    match mpParseNumInteger R.smallIntBits 10 (r.1.map UInt8.toNat) with
    | none => .error .number
    | some i => .ok (.next (.int i) false,r.2.2)

/-- What a character begins, and the stream after it. -/
def token (cur : UInt8) (s : List UInt8) : Except Error (Token φ×List UInt8) :=
  if cur=44∨cur=58∨cur=32∨cur=9∨cur=10∨cur=13 then .ok (.skip,s)
  else if cur=110 then word [117,108,108] .none s
  else if cur=102 then word [97,108,115,101] (.bool false) s
  else if cur=116 then word [114,117,101] (.bool true) s
  else if cur=34 then
    let r := strLoop s []
    if sEnd r.2 then .error .syntaxError else .ok (.next (.str r.1) false,r.2.tail)
  else if cur=45∨isDigit cur then number R cur s
  else if cur=91 then .ok (.next (.list []) true,s)
  else if cur=123 then .ok (.next (.dict []) true,s)
  else if cur=125∨cur=93 then .ok (.close,s)
  else .error .syntaxError

/-- What comes of a turn of the loop. -/
inductive Turn (φ : Type)
  | goesOn (st : State φ) (s : List UInt8)
  | ends (st : State φ) (s : List UInt8)

/-- A container that may have been closed, and its place. -/
def close (st : State φ) (s : List UInt8) : Except Error (Turn φ) :=
  match st.stackTop with
  | none => .error .syntaxError
  | some top =>
    match st.stack with
    | [] => .ok (.ends st s)
    | frame::stack => .ok (.goesOn {st with
        stack := stack
        stackTop := some (frame.fill R top)} s)

/-- A value goes to its place. A container that is entered leaves its place empty. -/
def add (st : State φ) (next : Data φ) (enter : Bool) (s : List UInt8) : Except Error (Turn φ) :=
  match st.stackTop with
  | none =>
    let st := {st with stackTop := some next}
    .ok (if enter then .goesOn st s else .ends st s)
  | some (.list items) =>
    .ok (.goesOn (if enter then {st with
          stack := .list items::st.stack
          stackTop := some next}
        else {st with stackTop := some (.list (items++[next]))}) s)
  | some (.dict pairs) =>
    match st.stackKey with
    | none => if enter then .error .syntaxError else .ok (.goesOn {st with stackKey := some next} s)
    | some key =>
      .ok (.goesOn (if enter then {st with
            stack := .dict pairs key::st.stack
            stackTop := some next
            stackKey := none}
          else {st with
            stackTop := some (.dict (mpObjDictStore R pairs key next))
            stackKey := none}) s)
  | some _ => .error .syntaxError

/-- A turn of the loop. -/
def turn (st : State φ) (cur : UInt8) (s : List UInt8) : Except Error (Turn φ) :=
  match token R cur s with
  | .error e => .error e
  | .ok (.skip,s) => .ok (.goesOn st s)
  | .ok (.close,s) => close R st s
  | .ok (.next next enter,s) => add R st next enter s

/-- The end: there is exactly one object, and only whitespace after it. -/
def finish (st : State φ) (s : List UInt8) : Except Error (Data φ) :=
  if !sEnd (s.dropWhile fun c => unicharIsspace c.toNat) then .error .syntaxError
  else
    match st.stackTop with
    | none => .error .syntaxError
    | some top => if st.stack=[] then .ok top else .error .syntaxError

/-! ## The loop ends -/

variable {R}

theorem length_strLoop_le (s vstr : List UInt8) : (strLoop s vstr).2.length ≤ s.length := by
  fun_induction strLoop s vstr with
  | case1 vstr => exact Nat.le_refl _
  | case2 vstr c s h => exact Nat.le_refl _
  | case3 vstr s h ih =>
    exact Nat.le_trans ih (Nat.le_succ_of_le (length_escape_le s))
  | case4 vstr c s h h' ih => exact Nat.le_succ_of_le ih

/-- A number is not longer than the stream. -/
theorem length_numLoop_le (s vstr : List UInt8) (flt : Bool) :
    (numLoop s vstr flt).2.2.length ≤ s.length := by
  fun_induction numLoop s vstr flt with
  | case1 vstr flt => exact Nat.le_refl _
  | case2 vstr flt c s h ih => exact Nat.le_succ_of_le ih
  | case3 vstr flt c s h h' ih => exact Nat.le_succ_of_le ih
  | case4 vstr flt c s h h' => exact Nat.le_refl _

/-- What follows from both branches. -/
theorem if_elim {α : Type} {c p : Prop} [Decidable c] {a b x : α}
    (h : (if c then a else b)=x) (ht : a=x → p) (hf : b=x → p) : p := by
  split at h
  · exact ht h
  · exact hf h

variable {d : Data φ} {t : Token φ}

/-- A word is not longer than the stream. -/
theorem length_word_le {text : List UInt8} {s s' : List UInt8}
    (h : word text d s=.ok (t,s')) : s'.length ≤ s.length := by
  rw [word] at h
  split at h
  · cases h
    rw [length_drop]
    omega
  · cases h

/-- A number is not longer than the stream. -/
theorem length_number_le {cur : UInt8} {s s' : List UInt8}
    (h : number R cur s=.ok (t,s')) : s'.length ≤ s.length := by
  have hnum := length_numLoop_le s [cur] false
  rw [number] at h
  split at h
  · split at h
    · cases h
    · cases h
      exact hnum
  · split at h
    · cases h
    · cases h
      exact hnum

/-- A token is not longer than the stream. -/
theorem length_token_le {cur : UInt8} {s s' : List UInt8}
    (h : token R cur s=.ok (t,s')) : s'.length ≤ s.length := by
  have hstr := length_strLoop_le s []
  have hstring (h : (if sEnd (strLoop s []).2 then (.error .syntaxError : Except Error (Token φ×_))
      else .ok (.next (.str (strLoop s []).1) false,(strLoop s []).2.tail))=.ok (t,s')) :
      s'.length ≤ s.length := by
    split at h
    · cases h
    · cases h
      rw [length_tail]
      omega
  rw [token] at h
  refine if_elim h (fun h => ?_) fun h => if_elim h length_word_le fun h =>
    if_elim h length_word_le fun h => if_elim h length_word_le fun h => if_elim h hstring fun h =>
    if_elim h length_number_le fun h => if_elim h (fun h => ?_) fun h =>
    if_elim h (fun h => ?_) fun h => if_elim h (fun h => ?_) fun h => nomatch h
  all_goals
    cases h
    exact Nat.le_refl _

/-- A turn takes nothing but a token from the stream. -/
theorem length_turn_le {st st' : State φ} {cur : UInt8} {s s' : List UInt8}
    (h : turn R st cur s=.ok (.goesOn st' s')) : s'.length ≤ s.length := by
  rw [turn] at h
  split at h
  · cases h
  case h_2 s₁ htoken =>
    cases h
    exact length_token_le htoken
  case h_3 s₁ htoken =>
    rw [close] at h
    split at h
    · cases h
    · split at h
      · cases h
      · cases h
        exact length_token_le htoken
  case h_4 next enter s₁ htoken =>
    rw [add] at h
    split at h
    · split at h
      · cases h
        exact length_token_le htoken
      · cases h
    · cases h
      exact length_token_le htoken
    · split at h
      · split at h
        · cases h
        · cases h
          exact length_token_le htoken
      · cases h
        exact length_token_le htoken
    · cases h

variable (R)

/-- The loop over the characters, and what comes after it. -/
def loadLoop (st : State φ) (s : List UInt8) : Except Error (Data φ) :=
  match s with
  | [] => finish st []
  | cur::s =>
    if cur=0 then finish st (cur::s)
    else
      match _h : turn R st cur s with
      | .error e => .error e
      | .ok (.ends st s) => finish st s
      | .ok (.goesOn st s) => loadLoop st s
termination_by s.length
decreasing_by exact Nat.lt_succ_of_le (length_turn_le ‹_›)

/-- `load` of a stream that delivers some bytes, and `loads` of a string with them. -/
def modUjsonLoad (s : List UInt8) : Except Error (Data φ) := loadLoop R ⟨[],none,none⟩ s

/-! ## Turns of the loop -/

variable {R} {st st' : State φ} {cur : UInt8} {s s' : List UInt8}

theorem loadLoop_goesOn (hcur : cur≠0) (h : turn R st cur s=.ok (.goesOn st' s')) :
    loadLoop R st (cur::s)=loadLoop R st' s' := by
  rw [loadLoop,if_neg hcur]
  split
  case h_1 e heq => rw [h] at heq; cases heq
  case h_2 heq => rw [h] at heq; cases heq
  case h_3 heq =>
    rw [h] at heq
    cases heq
    rfl

theorem loadLoop_ends (hcur : cur≠0) (h : turn R st cur s=.ok (.ends st' s')) :
    loadLoop R st (cur::s)=finish st' s' := by
  rw [loadLoop,if_neg hcur]
  split
  case h_1 e heq => rw [h] at heq; cases heq
  case h_2 heq =>
    rw [h] at heq
    cases heq
    rfl
  case h_3 heq => rw [h] at heq; cases heq

/-- The loop fails. -/
theorem loadLoop_error (hcur : cur≠0) {e : Error} (h : turn R st cur s=.error e) :
    loadLoop R st (cur::s)=.error e := by
  rw [loadLoop,if_neg hcur]
  split
  case h_1 e' heq =>
    rw [h] at heq
    cases heq
    rfl
  case h_2 heq => rw [h] at heq; cases heq
  case h_3 heq => rw [h] at heq; cases heq

/-- A character that the loop skips. -/
def IsSkipped (c : UInt8) : Prop := c=44∨c=58∨c=32∨c=9∨c=10∨c=13

theorem loadLoop_skip (h : IsSkipped cur) (st : State φ) (s : List UInt8) :
    loadLoop R st (cur::s)=loadLoop R st s := by
  have hcur : cur≠0 := by
    rcases h with rfl | rfl | rfl | rfl | rfl | rfl <;> decide
  have hcase : cur=44∨cur=58∨cur=32∨cur=9∨cur=10∨cur=13 := h
  refine loadLoop_goesOn hcur ?_
  rw [turn,token,if_pos hcase]

/-- Whitespace is skipped. -/
theorem loadLoop_ws (w : Ws) (st : State φ) (s : List UInt8) :
    loadLoop R st (w.text++s)=loadLoop R st s := by
  obtain ⟨ws,hws⟩ := w
  induction ws with
  | nil => rfl
  | cons c ws ih =>
    have hc := hws c mem_cons_self
    rw [isWs,Bool.or_eq_true,Bool.or_eq_true,Bool.or_eq_true,decide_eq_true_iff,
      decide_eq_true_iff,decide_eq_true_iff,decide_eq_true_iff] at hc
    have hskip : IsSkipped c := by
      rcases hc with ((rfl | rfl) | rfl) | rfl
      · exact .inr (.inr (.inl rfl))
      · exact .inr (.inr (.inr (.inl rfl)))
      · exact .inr (.inr (.inr (.inr (.inl rfl))))
      · exact .inr (.inr (.inr (.inr (.inr rfl))))
    rw [cons_append,loadLoop_skip hskip]
    exact ih fun c' hc' => hws c' (mem_cons_of_mem _ hc')

theorem turn_next {enter : Bool} (h : token R cur s=.ok (.next d enter,s')) :
    turn R st cur s=add R st d enter s' := by
  rw [turn,h]

/-- A turn with the end of a container. -/
theorem turn_close (h : cur=125∨cur=93) : turn R st cur s=close R st s := by
  have htoken : token R cur s=.ok (.close,s) := by
    rcases h with rfl | rfl <;> rfl
  rw [turn,htoken]

/-! ## Strings and numbers -/

theorem hexValue_text (d : HexDigit) : (hexValue d.text).toNat=d.value.val := by
  have hall : ∀ (v : Fin 16) (upper : Bool),
      (hexValue (HexDigit.mk v upper).text).toNat=v.val := by decide +kernel
  exact hall d.value d.upper

/-- A digit is added to a number. -/
theorem shift_or {num v : ℕ} (h : v<16) : num<<<4|||v=num*16+v := by
  rw [Nat.shiftLeft_eq,Nat.mul_comm num,←Nat.two_pow_add_eq_or_of_lt h num]

theorem hexLoop_digits (c : UInt8) (d₁ d₂ d₃ d₄ : HexDigit) (s : List UInt8) :
    hexLoop 4 0 (c::d₁.text::d₂.text::d₃.text::d₄.text::s)=(codeUnit d₁ d₂ d₃ d₄,d₄.text::s) := by
  have hstep (i num : ℕ) (c : UInt8) (d : HexDigit) (s : List UInt8) :
      hexLoop (i+1) num (c::d.text::s)=hexLoop i (num*16+d.value.val) (d.text::s) := by
    rw [hexLoop,tail_cons,sCur,headD_cons,hexValue_text,shift_or d.value.isLt]
  rw [hstep,hstep,hstep,hstep,hexLoop,codeUnit,Nat.zero_mul,Nat.zero_add]

theorem codeUnit_lt (d₁ d₂ d₃ d₄ : HexDigit) : codeUnit d₁ d₂ d₃ d₄<65536 := by
  rw [codeUnit]
  omega

/-- An escape of two characters. -/
theorem escape_letter (e : Escape) (s : List UInt8) : escape (e.letter::s)=([e.value],s) := by
  cases e <;> rfl

/-- A string in which every piece stands for itself. -/
theorem strLoop_text (ps : List Piece) (rest vstr : List UInt8) :
    strLoop (ps.flatMap Piece.text++34::rest) vstr=(vstr++decodeUnits ps,34::rest) := by
  induction ps generalizing vstr with
  | nil =>
    change strLoop (34::rest) vstr=(vstr++[],34::rest)
    rw [strLoop,if_pos (.inr rfl),append_nil]
  | cons p ps ih =>
    have hnext : decodeUnits (p::ps)=p.bytes++decodeUnits ps := flatMap_cons
    rw [flatMap_cons,append_assoc,hnext,←append_assoc vstr]
    cases p with
    | plain b h =>
      have hb : ¬(b=0∨b=34) := by
        rintro (rfl | rfl)
        · exact absurd h.1 (by decide)
        · exact h.2.1 rfl
      rw [Piece.text,singleton_append,strLoop,if_neg hb,if_neg h.2.2,ih]
      rfl
    | escape e =>
      change strLoop (92::e.letter::(ps.flatMap Piece.text++34::rest)) vstr=_
      rw [strLoop,if_neg (by decide),if_pos rfl,escape_letter,ih]
      rfl
    | unicode d₁ d₂ d₃ d₄ =>
      change strLoop (92::117::d₁.text::d₂.text::d₃.text::d₄.text::
        (ps.flatMap Piece.text++34::rest)) vstr=_
      have hescape : escape (117::d₁.text::d₂.text::d₃.text::d₄.text::
          (ps.flatMap Piece.text++34::rest))=
          ((Utf8.ofCode (codeUnit d₁ d₂ d₃ d₄)).bytes,ps.flatMap Piece.text++34::rest) := by
        have hlt := codeUnit_lt d₁ d₂ d₃ d₄
        rw [←PrintQuoted.charBytes_eq (by omega)]
        change (charBytes (hexLoop 4 0 _).1,(hexLoop 4 0 _).2.tail)=_
        rw [hexLoop_digits]
        rfl
      rw [strLoop,if_neg (by decide),if_pos rfl,hescape,ih]
      rfl

/-- A string is read to its end. -/
theorem token_string (ps : List Piece) (rest : List UInt8) :
    token R 34 (ps.flatMap Piece.text++34::rest)=
      .ok (.next (.str (decodeUnits ps)) false,rest) := by
  have hstr := strLoop_text ps rest []
  rw [nil_append] at hstr
  rw [token,if_neg (by decide),if_neg (by decide),if_neg (by decide),if_neg (by decide),
    if_pos rfl]
  rw [hstr]
  rfl

/-- A character that goes on with a number. -/
def goesOnNumber (c : UInt8) : Bool := c=46||c=69||c=101||c=45||isDigit c

/-- A number stops before what comes after it. -/
def Stops (rest : List UInt8) : Prop := ∀ c,rest.head?=some c → goesOnNumber c=false

/-- A character of a decimal number. -/
def isDecimal (c : UInt8) : Bool := c=46||c=69||c=101

/-- The characters of a number are taken up to where it stops. -/
theorem numLoop_text {text rest : List UInt8} (htext : ∀ c∈text,goesOnNumber c=true)
    (hrest : Stops rest) (vstr : List UInt8) (flt : Bool) :
    numLoop (text++rest) vstr flt=(vstr++text,flt||text.any isDecimal,rest) := by
  induction text generalizing vstr flt with
  | nil =>
    rw [nil_append,append_nil,any_nil,Bool.or_false]
    cases rest with
    | nil => rfl
    | cons c rest =>
      have hc := hrest c rfl
      rw [goesOnNumber,Bool.or_eq_false_iff,Bool.or_eq_false_iff,Bool.or_eq_false_iff,
        Bool.or_eq_false_iff,decide_eq_false_iff_not,decide_eq_false_iff_not,
        decide_eq_false_iff_not,decide_eq_false_iff_not] at hc
      obtain ⟨⟨⟨⟨h46,h69⟩,h101⟩,h45⟩,hdigit⟩ := hc
      have hpoint : ¬(c=46∨c=69∨c=101) := by
        rintro (h | h | h)
        · exact h46 h
        · exact h69 h
        · exact h101 h
      have hsign : ¬(c=45∨isDigit c=true) := by
        rintro (h | h)
        · exact h45 h
        · rw [hdigit] at h
          cases h
      rw [numLoop,if_neg hpoint,if_neg hsign]
  | cons c text ih =>
    have hc := htext c mem_cons_self
    have hrest' := ih fun c' hc' => htext c' (mem_cons_of_mem _ hc')
    rw [cons_append,numLoop,any_cons]
    split
    case isTrue hdec =>
      have htrue : isDecimal c=true := by
        rcases hdec with rfl | rfl | rfl <;> rfl
      rw [hrest',htrue,append_assoc,Bool.true_or,Bool.or_true,singleton_append]
    case isFalse hdec =>
      have hfalse : isDecimal c=false := by
        rw [isDecimal,Bool.or_eq_false_iff,Bool.or_eq_false_iff,decide_eq_false_iff_not,
          decide_eq_false_iff_not,decide_eq_false_iff_not]
        exact ⟨⟨fun h => hdec (.inl h),fun h => hdec (.inr (.inl h))⟩,
          fun h => hdec (.inr (.inr h))⟩
      have hnum : c=45∨isDigit c=true := by
        rw [goesOnNumber] at hc
        rw [isDecimal] at hfalse
        rw [hfalse,Bool.false_or,Bool.or_eq_true,decide_eq_true_iff] at hc
        exact hc
      rw [if_pos hnum,hrest',hfalse,append_assoc,Bool.false_or]
      rfl

/-- The characters that begin a number begin nothing else. -/
theorem token_number (h : cur=45∨isDigit cur=true) (s : List UInt8) :
    token R cur s=number R cur s := by
  have hall : (cur=45∨isDigit cur=true) →
      ¬(cur=44∨cur=58∨cur=32∨cur=9∨cur=10∨cur=13)∧cur≠110∧cur≠102∧cur≠116∧cur≠34 :=
    Unicode.forall_byte (p:=fun cur => (cur=45∨isDigit cur=true) →
      ¬(cur=44∨cur=58∨cur=32∨cur=9∨cur=10∨cur=13)∧cur≠110∧cur≠102∧cur≠116∧cur≠34)
      (by decide +kernel) cur
  obtain ⟨hskip,hn,hf,ht,hq⟩ := hall h
  rw [token,if_neg hskip,if_neg hn,if_neg hf,if_neg ht,if_neg hq,if_pos h]

theorem digit_facts {c : UInt8} (h : isDigit c=true) :
    goesOnNumber c=true∧isDecimal c=false∧IsDigit c.toNat := by
  have hall : isDigit c=true → goesOnNumber c=true∧isDecimal c=false∧48≤c.toNat∧c.toNat≤57 :=
    Unicode.forall_byte (p:=fun c => isDigit c=true →
      goesOnNumber c=true∧isDecimal c=false∧48≤c.toNat∧c.toNat≤57) (by decide +kernel) c
  exact hall h

theorem any_digits {ds : List UInt8} (h : ∀ c∈ds,isDigit c=true) : ds.any isDecimal=false :=
  any_eq_false.mpr fun c hc => by
    rw [(digit_facts (h c hc)).2.1]
    decide

/-- The sign and the digits of a number go on with it. -/
theorem intText_chars (n : Number) : (∀ c∈n.intText,goesOnNumber c=true)∧
    n.intText.any isDecimal=false := by
  have hdigits : ∀ c∈n.int.text,goesOnNumber c=true :=
    fun c hc => (digit_facts (n.int.digits c hc)).1
  rw [Number.intText,any_append,any_digits n.int.digits]
  cases n.minus with
  | false => exact ⟨hdigits,rfl⟩
  | true =>
    refine ⟨fun c hc => ?_,rfl⟩
    cases hc with
    | head => rfl
    | tail _ hc => exact hdigits c hc

theorem fracText_chars (frac : Option Digits) :
    (∀ c∈fracText frac,goesOnNumber c=true)∧(fracText frac).any isDecimal=frac.isSome := by
  cases frac with
  | none => exact ⟨fun c hc => (nomatch hc),rfl⟩
  | some ds =>
    refine ⟨fun c hc => ?_,rfl⟩
    cases hc with
    | head => rfl
    | tail _ hc => exact (digit_facts (ds.digits c hc)).1

theorem letter_facts (e : Exponent) : goesOnNumber e.letter=true∧isDecimal e.letter=true := by
  rw [Exponent.letter]
  split <;> exact ⟨rfl,rfl⟩

/-- The characters of an exponent without a plus sign go on with a number. -/
theorem expText_chars (exp : Option Exponent) (h : ∀ e,exp=some e → e.sign≠.plus) :
    (∀ c∈expText exp,goesOnNumber c=true)∧(expText exp).any isDecimal=exp.isSome := by
  cases exp with
  | none => exact ⟨fun c hc => (nomatch hc),rfl⟩
  | some e =>
    have hletter := letter_facts e
    refine ⟨fun c hc => ?_,?_⟩
    · cases hc with
      | head => exact hletter.1
      | tail _ hc =>
        cases mem_append.mp hc with
        | inl hc =>
          cases hsign : e.sign with
          | none =>
            rw [hsign] at hc
            cases hc
          | plus => exact absurd hsign (h e rfl)
          | minus =>
            rw [hsign] at hc
            rw [mem_singleton.mp hc]
            rfl
        | inr hc => exact (digit_facts (e.digits.digits c hc)).1
    · rw [expText,Exponent.text,any_cons,hletter.2]
      rfl

variable {n : Number}

theorem sign_ne_plus (h : n.hasPlus=false) (e : Exponent) (he : n.exp=some e) : e.sign≠.plus := by
  rw [Number.hasPlus,he] at h
  exact of_decide_eq_false h

/-- The characters of a number without a plus sign go on with it. -/
theorem number_chars (h : n.hasPlus=false) :
    (∀ c∈n.text,goesOnNumber c=true)∧n.text.any isDecimal=!n.isInt := by
  have hint := intText_chars n
  have hfrac := fracText_chars n.frac
  have hexp := expText_chars n.exp (sign_ne_plus h)
  refine ⟨fun c hc => ?_,?_⟩
  · cases mem_append.mp hc with
    | inl hc => exact hint.1 c hc
    | inr hc =>
      cases mem_append.mp hc with
      | inl hc => exact hfrac.1 c hc
      | inr hc => exact hexp.1 c hc
  · rw [Number.text,any_append,any_append,hint.2,hfrac.2,hexp.2,Number.isInt]
    cases n.frac <;> cases n.exp <;> rfl

/-- A number begins with its sign or a digit. -/
theorem exists_intText (n : Number) : ∃ cur tail,n.intText=cur::tail∧(cur=45∨isDigit cur=true) := by
  obtain ⟨c,ds,hds⟩ := exists_cons_of_ne_nil n.int.ne
  rw [Number.intText]
  cases n.minus with
  | true => exact ⟨45,n.int.text,rfl,.inl rfl⟩
  | false =>
    refine ⟨c,ds,hds,.inr (n.int.digits c ?_)⟩
    rw [hds]
    exact mem_cons_self

/-- The digits of an integer stand for its value. -/
theorem parse_intText (bits : ℕ) (n : Number) :
    mpParseNumInteger bits 10 (n.intText.map UInt8.toNat)=some n.intValue := by
  have hdigits : ∀ c∈n.int.text.map UInt8.toNat,IsDigit c := by
    intro c hc
    obtain ⟨b,hb,rfl⟩ := mem_map.mp hc
    exact (digit_facts (n.int.digits b hb)).2.2
  have hne : n.int.text.map UInt8.toNat≠[] := fun h => n.int.ne (map_eq_nil_iff.mp h)
  have hvalue : decimalValue 0 (n.int.text.map UInt8.toNat)=digitsValue n.int.text := by
    rw [decimalValue,digitsValue,foldl_map]
  have hparse := mpParseNumInteger_digits bits n.minus hne hdigits
  rw [hvalue] at hparse
  rw [Number.intText,Number.intValue]
  cases hm : n.minus with
  | true =>
    rw [hm] at hparse
    exact hparse
  | false =>
    rw [hm] at hparse
    exact hparse

/-- The readings of the loader, where every piece of a string stands for itself. -/
def units (R : Runtime φ) : Reading φ := single R.float (mpObjDictStore R)

/-- A number without a plus sign in its exponent. -/
theorem token_numberText (h : n.hasPlus=false) {rest : List UInt8}
    (hrest : Stops rest) : ∃ cur tail,n.text=cur::tail∧cur≠0∧
    token R cur (tail++rest)=.ok (.next ((Value.number n).data (units R)) false,rest) := by
  obtain ⟨cur,tail,hint,hcur⟩ := exists_intText n
  have htext : n.text=cur::(tail++(fracText n.frac++expText n.exp)) := by
    rw [Number.text,hint,cons_append]
  refine ⟨cur,_,htext,?_,?_⟩
  · rintro rfl
    rcases hcur with h | h <;> cases h
  have hchars := number_chars h
  rw [htext] at hchars
  have hloop := numLoop_text (fun c hc => hchars.1 c (mem_cons_of_mem _ hc)) hrest [cur] false
  have hcurdec : isDecimal cur=false := by
    rcases hcur with rfl | hcur
    · rfl
    · exact (digit_facts hcur).2.1
  have hany := hchars.2
  rw [any_cons,hcurdec] at hany
  rw [hany,singleton_append,←htext] at hloop
  rw [token_number hcur,number,hloop,Value.data]
  dsimp only
  cases hisint : n.isInt with
  | false =>
    rw [Bool.not_false,if_pos rfl,R.reads n hisint]
    rfl
  | true =>
    have hintText : n.text=n.intText := by
      rw [Number.isInt,Bool.and_eq_true,Option.isNone_iff_eq_none,Option.isNone_iff_eq_none] at hisint
      rw [Number.text,hisint.1,hisint.2]
      exact append_nil _
    rw [Bool.not_true,if_neg (by decide),hintText,parse_intText]
    rfl

/-- A number with a plus sign in its exponent is cut before that sign. -/
theorem token_plus (h : n.hasPlus=true) (rest : List UInt8) :
    ∃ cur tail,n.text=cur::tail∧cur≠0∧((∃ e,token R cur (tail++rest)=.error e)∨
      ∃ d s,token R cur (tail++rest)=.ok (.next d false,43::s)) := by
  obtain ⟨cur,tail,hint,hcur⟩ := exists_intText n
  cases hexp : n.exp with
  | none =>
    rw [Number.hasPlus,hexp] at h
    cases h
  | some e =>
    rw [Number.hasPlus,hexp] at h
    have hsign := of_decide_eq_true h
    obtain ⟨front,hfront⟩ : ∃ front,front=tail++(fracText n.frac++[e.letter]) := ⟨_,rfl⟩
    have htext : n.text=cur::(front++43::e.digits.text) := by
      rw [Number.text,hint,hexp,hfront,expText,Exponent.text,hsign,Sign.text]
      simp only [cons_append,append_assoc,nil_append]
    refine ⟨cur,_,htext,?_,?_⟩
    · rintro rfl
      rcases hcur with h | h <;> cases h
    have hchars : ∀ c∈front,goesOnNumber c=true := by
      intro c hc
      rw [hfront] at hc
      cases mem_append.mp hc with
      | inl hc =>
        refine (intText_chars n).1 c ?_
        rw [hint]
        exact mem_cons_of_mem _ hc
      | inr hc =>
        cases mem_append.mp hc with
        | inl hc => exact (fracText_chars n.frac).1 c hc
        | inr hc =>
          rw [mem_singleton.mp hc]
          exact (letter_facts e).1
    have hany : front.any isDecimal=true := by
      rw [hfront,any_append,any_append,any_cons,(letter_facts e).2,Bool.true_or,
        Bool.or_true,Bool.or_true]
    have hstops : Stops (43::(e.digits.text++rest)) := by
      intro c hc
      rw [←Option.some.inj hc]
      rfl
    have hloop := numLoop_text hchars hstops [cur] false
    rw [hany,Bool.or_true] at hloop
    have hcut : front++43::e.digits.text++rest=front++43::(e.digits.text++rest) := by
      rw [append_assoc,cons_append]
    rw [token_number hcur,number,hcut,hloop]
    rw [if_pos rfl]
    cases R.mpParseNumDecimal ([cur]++front) with
    | none => exact .inl ⟨.number,rfl⟩
    | some x => exact .inr ⟨.float x,_,rfl⟩

/-! ## Values go to their places -/

/-- A value has a place: at the end of a list, or at a key of a dictionary. -/
def Ready : State φ→Prop
  | ⟨_,some (.list _),none⟩ => True
  | ⟨_,some (.dict _),some _⟩ => True
  | _ => False

/-- The end of a list is a place. -/
theorem ready_list (stack : List (Frame φ)) (items : List (Data φ)) :
    Ready ⟨stack,some (.list items),none⟩ := trivial

theorem ready_dict (stack : List (Frame φ)) (pairs : List (Data φ×Data φ)) (key : Data φ) :
    Ready ⟨stack,some (.dict pairs),some key⟩ := trivial

/-- The state after a value has come to its place. -/
def put (R : Runtime φ) : State φ→Data φ→State φ
  | ⟨stack,some (.list items),key⟩,d => ⟨stack,some (.list (items++[d])),key⟩
  | ⟨stack,some (.dict pairs),some key⟩,d =>
    ⟨stack,some (.dict (mpObjDictStore R pairs key d)),none⟩
  | st,_ => st

/-- The state inside a container that has been entered. -/
def enter : State φ→Data φ→State φ
  | ⟨stack,some (.list items),_⟩,d => ⟨.list items::stack,some d,none⟩
  | ⟨stack,some (.dict pairs),some key⟩,d => ⟨.dict pairs key::stack,some d,none⟩
  | st,_ => st

theorem add_put (hst : Ready st) (d : Data φ) (s : List UInt8) :
    add R st d false s=.ok (.goesOn (put R st d) s) := by
  obtain ⟨stack,_ | (_ | _ | _ | _ | _ | items | pairs),_ | key⟩ := st
  all_goals first | exact hst.elim | rfl

theorem add_enter (hst : Ready st) (d : Data φ) (s : List UInt8) :
    add R st d true s=.ok (.goesOn (enter st d) s) := by
  obtain ⟨stack,_ | (_ | _ | _ | _ | _ | items | pairs),_ | key⟩ := st
  all_goals first | exact hst.elim | rfl

/-- The place is filled where the container was entered. -/
theorem enter_eq (hst : Ready st) : ∃ stack frame,(∀ d,enter st d=⟨frame::stack,some d,none⟩)∧
    ∀ d,(⟨stack,some (frame.fill R d),none⟩ : State φ)=put R st d := by
  obtain ⟨stack,_ | (_ | _ | _ | _ | _ | items | pairs),_ | key⟩ := st
  all_goals first
    | exact hst.elim
    | exact ⟨stack,.list items,fun _ => rfl,fun _ => rfl⟩
    | exact ⟨stack,.dict pairs key,fun _ => rfl,fun _ => rfl⟩

theorem loadLoop_close (hcur : cur=125∨cur=93) (hst : Ready st) (d : Data φ) (rest : List UInt8) :
    loadLoop R (enter st d) (cur::rest)=loadLoop R (put R st d) rest := by
  obtain ⟨stack,frame,henter,hfill⟩ := enter_eq (R:=R) hst
  have hne : cur≠0 := by
    rcases hcur with rfl | rfl <;> decide
  refine loadLoop_goesOn hne ?_
  rw [turn_close hcur,henter,←hfill,close]

/-- A value that is no container is read. -/
theorem loadLoop_next (hcur : cur≠0) (hst : Ready st) (h : token R cur s=.ok (.next d false,s')) :
    loadLoop R st (cur::s)=loadLoop R (put R st d) s' := by
  refine loadLoop_goesOn hcur ?_
  rw [turn_next h,add_put hst]

theorem loadLoop_enter (hcur : cur≠0) (hst : Ready st) (h : token R cur s=.ok (.next d true,s')) :
    loadLoop R st (cur::s)=loadLoop R (enter st d) s' := by
  refine loadLoop_goesOn hcur ?_
  rw [turn_next h,add_enter hst]

theorem stops_cons {c : UInt8} (h : goesOnNumber c=false) (s : List UInt8) : Stops (c::s) := by
  intro c' hc'
  rw [←Option.some.inj hc']
  exact h

theorem stops_ws (w : Ws) {s : List UInt8} (h : Stops s) : Stops (w.text++s) := by
  obtain ⟨ws,hws⟩ := w
  cases ws with
  | nil => exact h
  | cons c ws =>
    have hall : isWs c=true → goesOnNumber c=false :=
      Unicode.forall_byte (p:=fun c => isWs c=true → goesOnNumber c=false) (by decide +kernel) c
    exact stops_cons (hall (hws c mem_cons_self)) _

/-- `null`, `false` and `true` are read. -/
theorem token_bool (b : Bool) (rest : List UInt8) : ∃ cur tail,(Value.bool b).text=cur::tail∧cur≠0∧
    token R cur (tail++rest)=.ok (.next (.bool b) false,rest) := by
  cases b with
  | false => exact ⟨102,[97,108,115,101],rfl,by decide,rfl⟩
  | true => exact ⟨116,[114,117,101],rfl,by decide,rfl⟩

/-- A key waits for its value. -/
theorem loadLoop_key (k : List Piece) (stack : List (Frame φ)) (pairs : List (Data φ×Data φ))
    (rest : List UInt8) :
    loadLoop R ⟨stack,some (.dict pairs),none⟩ (stringText k++rest)=
      loadLoop R ⟨stack,some (.dict pairs),some (.str (decodeUnits k))⟩ rest := by
  rw [stringText,cons_append,append_assoc,singleton_append]
  refine loadLoop_goesOn (by decide) ?_
  rw [turn_next (token_string k rest)]
  rfl

mutual

/-- A value comes to its place. -/
theorem value_loaded (v : Value) (hplus : v.noPlus) (st : State φ) (hst : Ready st)
    (rest : List UInt8) (hrest : Stops rest) :
    loadLoop R st (v.text++rest)=loadLoop R (put R st (v.data (units R))) rest := by
  cases v with
  | null => exact loadLoop_next (by decide) hst rfl
  | bool b =>
    obtain ⟨cur,tail,htext,hcur,htoken⟩ := token_bool (R:=R) b rest
    rw [htext]
    exact loadLoop_next hcur hst htoken
  | number n =>
    obtain ⟨cur,tail,htext,hcur,htoken⟩ := token_numberText (R:=R) hplus hrest
    rw [Value.text,htext]
    exact loadLoop_next hcur hst htoken
  | string s =>
    rw [Value.text,stringText,cons_append,append_assoc]
    exact loadLoop_next (by decide) hst (token_string s rest)
  | emptyArray w =>
    rw [Value.text,cons_append,append_assoc,loadLoop_enter (by decide) hst rfl,loadLoop_ws]
    exact loadLoop_close (.inr rfl) hst _ rest
  | array w es =>
    rw [Value.text,cons_append,append_assoc,append_assoc,
      loadLoop_enter (by decide) hst rfl,loadLoop_ws]
    obtain ⟨stack,frame,henter,_⟩ := enter_eq (R:=R) hst
    rw [singleton_append,henter,elements_loaded es hplus _ [] _ (stops_cons (c:=93) rfl _),←henter]
    exact loadLoop_close (.inr rfl) hst _ rest
  | emptyObject w =>
    rw [Value.text,cons_append,append_assoc,loadLoop_enter (by decide) hst rfl,loadLoop_ws]
    exact loadLoop_close (.inl rfl) hst _ rest
  | object w ms =>
    rw [Value.text,cons_append,append_assoc,append_assoc,
      loadLoop_enter (by decide) hst rfl,loadLoop_ws]
    obtain ⟨stack,frame,henter,_⟩ := enter_eq (R:=R) hst
    rw [singleton_append,henter,members_loaded ms hplus _ [] _ (stops_cons (c:=125) rfl _),←henter]
    exact loadLoop_close (.inl rfl) hst _ rest

/-- Elements come to the end of their list. -/
theorem elements_loaded (es : Elements) (hplus : es.noPlus) (stack : List (Frame φ))
    (items : List (Data φ)) (rest : List UInt8) (hrest : Stops rest) :
    loadLoop R ⟨stack,some (.list items),none⟩ (es.text++rest)=
      loadLoop R ⟨stack,some (.list (items++es.data (units R))),none⟩ rest := by
  cases es with
  | last v w =>
    rw [Elements.text,append_assoc,value_loaded v hplus _ (ready_list _ _) _ (stops_ws w hrest),
      loadLoop_ws]
    rfl
  | more v w w' es =>
    rw [Elements.text,append_assoc,append_assoc,cons_append,append_assoc,
      value_loaded v hplus.1 _ (ready_list _ _) _
        (stops_ws w (stops_cons (c:=44) rfl _)),loadLoop_ws,
      loadLoop_skip (.inl rfl),loadLoop_ws,put,elements_loaded es hplus.2 _ _ rest hrest,
      append_assoc]
    rfl

/-- Members come to their dictionary. -/
theorem members_loaded (ms : Members) (hplus : ms.noPlus) (stack : List (Frame φ))
    (pairs : List (Data φ×Data φ)) (rest : List UInt8) (hrest : Stops rest) :
    loadLoop R ⟨stack,some (.dict pairs),none⟩ (ms.text++rest)=
      loadLoop R ⟨stack,some (.dict (ms.data (units R) pairs)),none⟩ rest := by
  cases ms with
  | last k w₁ w₂ v w₃ =>
    rw [Members.text,append_assoc,loadLoop_key,append_assoc,loadLoop_ws,
      cons_append,loadLoop_skip (.inr (.inl rfl)),append_assoc,loadLoop_ws,
      append_assoc,value_loaded v hplus _ (ready_dict _ _ _) _ (stops_ws w₃ hrest),loadLoop_ws]
    rfl
  | more k w₁ w₂ v w₃ w₄ ms =>
    rw [Members.text,append_assoc,loadLoop_key,append_assoc,loadLoop_ws,
      cons_append,loadLoop_skip (.inr (.inl rfl)),append_assoc,loadLoop_ws,
      append_assoc,append_assoc,cons_append,append_assoc,
      value_loaded v hplus.1 _ (ready_dict _ _ _) _
        (stops_ws w₃ (stops_cons (c:=44) rfl _)),loadLoop_ws,
      loadLoop_skip (.inl rfl),loadLoop_ws,put,members_loaded ms hplus.2 _ _ rest hrest]
    rfl

end

end MicroPython.Ujson
