import Mathlib.Data.Nat.Log
import Mathlib.Algebra.Order.Floor.Div
import Mathlib.Tactic.Ring
import Mathlib.Tactic.Linarith

/-!
# Argument array of a call with `*seq` and `**mapping`

`mp_call_prepare_args_n_kw_var` builds the argument array of a call from the
value stack, an arbitrary iterable and an arbitrary mapping. The array is
sized before the iterable is run, doubled while it runs, and filled with the
explicit keywords without a check. Every write is recorded against the
allocation in force, so a write past the end is a fact about the run.
-/

namespace MicroPython.CallPrepareArgs

open Nat List

variable {α ε : Type}

/-- What `mp_iternext` delivers from one iterable: the items in order and
the exception raised in place of the final stop, if there is one. -/
structure Iteration (α ε : Type) where
  /-- Items delivered before the iterable stops. -/
  items : List α
  /-- Exception other than StopIteration that ends the iteration. -/
  raised : Option ε

/-- The two routes of the code for a `*seq` argument. -/
inductive PosSeq (α ε : Type) where
  /-- A tuple or a list, whose items are copied as one block. -/
  | array (items : List α)
  /-- Any other iterable, run through `mp_getiter` and `mp_iternext`. -/
  | generic (run : Iteration α ε)

/-- The two routes of the code for a `**mapping` argument. -/
inductive KwMapping (α ε : Type) where
  /-- A dict: the number of entries when the array is sized, and the slots
  of its table when they are copied. The iterable of `*seq` runs in between
  and may have changed the dict. -/
  | dict (usedAtStart : ℕ) (table : List (Option (α×α)))
  /-- Any other object with `keys()` and `__getitem__`. -/
  | generic (keys : Iteration α ε) (getItem : α→Except ε α)

/-- How the objects of the heap answer the type tests of the code. -/
structure Objects (α ε : Type) where
  /-- The route taken for an object given as `*seq`. -/
  seq : α→PosSeq α ε
  /-- The route taken for an object given as `**mapping`. -/
  mapping : α→KwMapping α ε
  /-- `mp_obj_str_intern` on a str key, the identity on any other key. -/
  intern : α→α

/-- The array `args2`, with `args2_alloc` and a record of its bounds. The
length `args2_len` is the number of items written so far. -/
structure ArgArray (α : Type) where
  /-- `args2_alloc`, the number of entries the array has room for. -/
  alloc : ℕ
  /-- Entries written so far; `none` is `MP_OBJ_NULL`. -/
  items : List (Option α)
  /-- Some entry was written at an index not below `alloc`. -/
  overrun : Bool
  deriving DecidableEq

/-- `m_new`: a fresh array of the given size. -/
def ArgArray.new (alloc : ℕ) : ArgArray α := ⟨alloc,[],false⟩

/-- `args2[args2_len++] = value`. -/
def ArgArray.push (array : ArgArray α) (value : Option α) : ArgArray α :=
  ⟨array.alloc,array.items++[value],array.overrun || decide (array.alloc≤array.items.length)⟩

/-- `mp_seq_copy` to the end of the array, followed by the length update. -/
def ArgArray.copy (array : ArgArray α) (values : List (Option α)) : ArgArray α :=
  values.foldl ArgArray.push array

/-- `m_renew` to a larger size; the entries are kept. -/
def ArgArray.renew (array : ArgArray α) (alloc : ℕ) : ArgArray α :=
  {array with alloc := alloc}

/-- One turn of the loop over a generic iterable. -/
def pushItem (array : ArgArray α) (item : α) : ArgArray α :=
  if array.alloc≤array.items.length then (array.renew (array.alloc*2)).push (some item)
  else array.push (some item)

/-- Room for a key and its value, before they are stored. -/
def growForPair (array : ArgArray α) : ArgArray α :=
  if array.alloc≤array.items.length+1 then
    array.renew (if array.alloc*2<4 then 4 else array.alloc*2)
  else array

/-- Slots of a dict table copied in order, skipping the empty ones. -/
def copyDict (intern : α→α) (array : ArgArray α) : List (Option (α×α))→ArgArray α
  | [] => array
  | none::table => copyDict intern array table
  | some (key,value)::table =>
    copyDict intern ((array.push (some (intern key))).push (some value)) table

/-- The loop over the keys of a generic mapping. The value is fetched with
the interned key, after the array has been grown. -/
def copyKeys (intern : α→α) (getItem : α→Except ε α) (raised : Option ε) (array : ArgArray α) :
    List α→ArgArray α×Option ε
  | [] => (array,raised)
  | key::keys =>
    let array := growForPair array
    match getItem (intern key) with
    | .error e => (array,some e)
    | .ok value =>
      copyKeys intern getItem raised ((array.push (some (intern key))).push (some value)) keys

/-- The record `mp_call_args_t` handed to the call. -/
structure CallArgs (α : Type) where
  function : Option α
  args : List (Option α)
  /-- Number of positional entries at its start. -/
  nArgs : ℕ
  /-- Number of key and value pairs after them. -/
  nKw : ℕ
  /-- Entries allocated, needed to free the array. -/
  nAlloc : ℕ
  deriving DecidableEq

/-- A finished run: the array as it was left, and the record or exception. -/
structure Prepared (α ε : Type) where
  /-- The array at the end of the run. -/
  array : ArgArray α
  /-- The record filled in, or the exception that left the function. -/
  result : Except ε (CallArgs α)

/-- `kw_dict_len`: only a dict gives a hint for the size of the mapping. -/
def kwDictLen : Option (KwMapping α ε)→ℕ
  | some (.dict usedAtStart _) => usedAtStart
  | _ => 0

/-- The positional part: the three ways to size the array and to fill it
with self, the fixed arguments and the items of the sequence. -/
def extractSeq (self : Option α) (fixed : List (Option α)) (nKw dictLen : ℕ) :
    Option (PosSeq α ε)→ArgArray α×Option ε
  | none =>
    let array := ArgArray.new (1+fixed.length+2*(nKw+dictLen))
    ((array.copy (self.toList.map some)).copy fixed,none)
  | some (.array items) =>
    let array := ArgArray.new (1+fixed.length+items.length+2*(nKw+dictLen))
    ((array.copy (self.toList.map some)).copy (fixed++items.map some),none)
  | some (.generic run) =>
    let array := ArgArray.new (1+fixed.length+2*(nKw+dictLen)+3)
    (run.items.foldl pushItem ((array.copy (self.toList.map some)).copy fixed),run.raised)

/-- The mapping part, appended after the explicit keywords. -/
def extractMapping (intern : α→α) (array : ArgArray α) : Option (KwMapping α ε)→ArgArray α×Option ε
  | none => (array,none)
  | some (.dict _ table) => (copyDict intern array table,none)
  | some (.generic keys getItem) => copyKeys intern getItem keys.raised array keys.items

/-- `mp_call_prepare_args_n_kw_var` on the stack slots of the call: the
function, self when `haveSelf`, the fixed positional arguments, the explicit
keywords, the sequence and the mapping. -/
def mpCallPrepareArgsNKwVar (objects : Objects α ε) (haveSelf : Bool) (nArgsNKw : ℕ)
    (stack : List (Option α)) : Prepared α ε :=
  let function := stack.head?.join
  let self := if haveSelf then stack.tail.head?.join else none
  let args := if haveSelf then stack.tail.tail else stack.tail
  let nArgs := nArgsNKw%256
  let nKw := nArgsNKw/256%256
  let posSeq := (args[nArgs+2*nKw]?.join).map objects.seq
  let kwDict := (args[nArgs+2*nKw+1]?.join).map objects.mapping
  let extracted := extractSeq self (args.take nArgs) nKw (kwDictLen kwDict) posSeq
  match extracted.2 with
  | some e => ⟨extracted.1,.error e⟩
  | none =>
    let posArgsLen := extracted.1.items.length
    let withKw := extracted.1.copy ((args.drop nArgs).take (2*nKw))
    let mapped := extractMapping objects.intern withKw kwDict
    match mapped.2 with
    | some e => ⟨mapped.1,.error e⟩
    | none => ⟨mapped.1,.ok ⟨function,mapped.1.items,posArgsLen,
        (mapped.1.items.length-posArgsLen)/2,mapped.1.alloc⟩⟩

variable (intern : α→α) (array : ArgArray α)

theorem push_overrun (value : Option α) : (array.push value).overrun=false ↔
      array.overrun=false ∧ array.items.length<array.alloc := by
  simp [ArgArray.push]

/-- Copying keeps the order of the entries and the size of the array. -/
theorem copy_items (values : List (Option α)) :
    (array.copy values).items=array.items++values ∧ (array.copy values).alloc=array.alloc := by
  induction values generalizing array with
  | nil => simp [ArgArray.copy]
  | cons value values ih =>
    have hrest := ih (array.push value)
    constructor
    · calc
        (array.copy (value::values)).items=(array.push value).items++values := hrest.1
        _=array.items++(value::values) := by simp [ArgArray.push]
    · exact hrest.2

/-- The record of the bounds is exact: as long as the array is only filled,
nothing was written past it if and only if its length fits. -/
def ArgArray.Exact (array : ArgArray α) : Prop :=
  array.overrun=false ↔ array.items.length≤array.alloc

theorem new_exact (alloc : ℕ) : (ArgArray.new alloc : ArgArray α).Exact := by
  simp [ArgArray.Exact,ArgArray.new]

/-- One write keeps the record exact. -/
theorem push_exact {array : ArgArray α} (h : array.Exact) (value : Option α) :
    (array.push value).Exact := by
  unfold ArgArray.Exact at h ⊢
  rw [push_overrun,h]
  simp only [ArgArray.push,length_append,length_cons,length_nil]
  omega

/-- A block copy keeps the record exact. -/
theorem copy_exact {array : ArgArray α} (h : array.Exact) (values : List (Option α)) :
    (array.copy values).Exact := by
  induction values generalizing array with
  | nil => exact h
  | cons value values ih => exact ih (push_exact h value)

/-- Size reached by repeated doubling of `alloc` once `length` entries have
been written: the least `alloc*2^k` that holds them. -/
def grownAlloc (alloc length : ℕ) : ℕ := alloc*2^Nat.clog 2 (length⌈/⌉alloc)

/-- The doubled size holds the entries. -/
theorem le_grownAlloc {alloc : ℕ} (ha : 0<alloc) (length : ℕ) : length≤grownAlloc alloc length := by
  have hceil : length≤alloc*(length⌈/⌉alloc) := by
    rw [ceilDiv_eq_add_pred_div]
    have hm := div_add_mod (length+alloc-1) alloc
    have hl := mod_lt (length+alloc-1) ha
    omega
  exact hceil.trans (mul_le_mul_left _ (le_pow_clog one_lt_two _))

theorem grownAlloc_of_le {alloc length : ℕ} (h : length≤alloc) : grownAlloc alloc length=alloc := by
  have hceil : length⌈/⌉alloc≤1 := by
    rcases Nat.eq_zero_or_pos alloc with h0 | ha
    · subst h0
      simp
    · exact (ceilDiv_le_iff_le_mul ha).mpr (by simpa using h)
  rw [grownAlloc,clog_of_right_le_one hceil,pow_zero,mul_one]

theorem clog_ceilDiv_le_iff {alloc : ℕ} (ha : 0<alloc) (length k : ℕ) :
    Nat.clog 2 (length⌈/⌉alloc)≤k ↔ length≤alloc*2^k := by
  rw [clog_le_iff_le_pow one_lt_two,ceilDiv_le_iff_le_mul ha]

/-- One more entry doubles the size exactly when the array was full. -/
theorem grownAlloc_succ {alloc : ℕ} (ha : 0<alloc) (length : ℕ) : grownAlloc alloc (length+1)=
      if grownAlloc alloc length≤length then grownAlloc alloc length*2
      else grownAlloc alloc length := by
  have hle := le_grownAlloc ha length
  have hexp := clog_ceilDiv_le_iff ha
  unfold grownAlloc at hle ⊢
  generalize hk : Nat.clog 2 (length⌈/⌉alloc)=k at hle ⊢
  have hpos : 0<alloc*2^k := Nat.mul_pos ha (Nat.two_pow_pos k)
  split
  case isTrue hfull =>
    have hsucc : Nat.clog 2 ((length+1)⌈/⌉alloc)=k+1 := by
      apply le_antisymm
      · rw [hexp,pow_succ,←mul_assoc]
        omega
      · have hnot : ¬Nat.clog 2 ((length+1)⌈/⌉alloc)≤k := by rw [hexp]; omega
        omega
    rw [hsucc,pow_succ,mul_assoc]
  case isFalse hroom =>
    have hsucc : Nat.clog 2 ((length+1)⌈/⌉alloc)=k := by
      apply le_antisymm
      · rw [hexp]
        omega
      · rw [←hk,hexp]
        exact (le_succ length).trans ((hexp (length+1) _).mp le_rfl)
    rw [hsucc]

/-- State of the array while a generic iterable runs: nothing was written
past the end, and the size is the first size doubled as often as needed. -/
structure ArgArray.Grown (array : ArgArray α) (start : ℕ) : Prop where
  /-- Every write so far was inside the allocation. -/
  inside : array.overrun=false
  size : array.alloc=grownAlloc start array.items.length

/-- One turn of the iteration loop keeps the array in that state. -/
theorem pushItem_grown {array : ArgArray α} {start : ℕ} (hs : 0 < start)
    (h : array.Grown start) (item : α) :
    (pushItem array item).Grown start ∧ (pushItem array item).items=array.items++[some item] := by
  have hle := le_grownAlloc hs array.items.length
  have hstep := grownAlloc_succ hs array.items.length
  rw [←h.size] at hle hstep
  unfold pushItem
  split
  case isTrue hfull =>
    rw [if_pos hfull] at hstep
    have hroom : array.items.length<array.alloc*2 := by
      have hone := le_grownAlloc hs (array.items.length+1)
      omega
    refine ⟨⟨?_,?_⟩,rfl⟩
    · exact (push_overrun _ _).mpr ⟨h.inside,hroom⟩
    · simpa [ArgArray.push,ArgArray.renew] using hstep.symm
  case isFalse hroom =>
    rw [if_neg hroom] at hstep
    refine ⟨⟨?_,?_⟩,rfl⟩
    · exact (push_overrun _ _).mpr ⟨h.inside,by omega⟩
    · simpa [ArgArray.push] using hstep.symm

/-- The whole iteration appends its items in order and stays inside the
array, however many items there are. -/
theorem foldl_pushItem_grown {array : ArgArray α} {start : ℕ} (hs : 0 < start)
    (h : array.Grown start) (items : List α) :
    (items.foldl pushItem array).Grown start ∧
      (items.foldl pushItem array).items=array.items++items.map some := by
  induction items generalizing array with
  | nil => exact ⟨h,by simp⟩
  | cons item items ih =>
    obtain ⟨hgrown,hitems⟩ := pushItem_grown hs h item
    obtain ⟨hfinal,hall⟩ := ih hgrown
    exact ⟨hfinal,by simp [hall,hitems]⟩

/-- Filled slots of a dict table, keys interned, as entries in order. -/
def dictEntries (intern : α→α) (table : List (Option (α×α))) : List (Option α) :=
  table.flatMap fun
    | none => []
    | some (key,value) => [some (intern key),some value]

theorem copyDict_eq (table : List (Option (α×α))) :
    copyDict intern array table=array.copy (dictEntries intern table) := by
  induction table generalizing array with
  | nil => rfl
  | cons slot table ih =>
    cases slot with
    | none => exact ih array
    | some pair => exact ih _

/-- Entries of a generic mapping: every key is interned and then looked up;
a failing lookup or a failing iteration ends the mapping. -/
def mappingEntries (intern : α→α) (getItem : α→Except ε α) (raised : Option ε) :
    List α→Except ε (List (Option α))
  | [] => match raised with
    | none => .ok []
    | some e => .error e
  | key::keys => match getItem (intern key) with
    | .error e => .error e
    | .ok value => match mappingEntries intern getItem raised keys with
      | .error e => .error e
      | .ok entries => .ok (some (intern key)::some value::entries)

theorem growForPair_keeps :
    (growForPair array).items=array.items ∧ (growForPair array).overrun=array.overrun := by
  unfold growForPair
  split <;> exact ⟨rfl,rfl⟩

theorem growForPair_room {array : ArgArray α} (ha : 0<array.alloc)
    (h : array.items.length≤array.alloc) :
    array.items.length+2≤(growForPair array).alloc := by
  unfold growForPair
  split
  · dsimp only [ArgArray.renew]
    split <;> omega
  · omega

/-- The loop over the keys of a generic mapping appends the mapping's pairs,
ends with its exception, and adds no write past the end of its own. -/
theorem copyKeys_spec (getItem : α→Except ε α) (raised : Option ε)
    (array : ArgArray α) (keys : List α) :
    (match mappingEntries intern getItem raised keys with
      | .ok entries => (copyKeys intern getItem raised array keys).2=none ∧
          (copyKeys intern getItem raised array keys).1.items=array.items++entries
      | .error e => (copyKeys intern getItem raised array keys).2=some e) ∧
    (0<array.alloc→(array.overrun=false → array.items.length≤array.alloc)→
      (copyKeys intern getItem raised array keys).1.overrun=array.overrun) := by
  induction keys generalizing array with
  | nil =>
    cases raised with
    | none => simp [mappingEntries,copyKeys]
    | some e => simp [mappingEntries,copyKeys]
  | cons key keys ih =>
    obtain ⟨hitems,hover⟩ := growForPair_keeps array
    cases hg : getItem (intern key) with
    | error e => simp [mappingEntries,copyKeys,hg,hover]
    | ok value =>
      obtain ⟨hentries,hbounds⟩ :=
        ih (((growForPair array).push (some (intern key))).push (some value))
      simp only [mappingEntries,copyKeys,hg]
      constructor
      · cases hm : mappingEntries intern getItem raised keys with
        | error e => simpa only [hm] using hentries
        | ok entries =>
          rw [hm] at hentries
          refine ⟨hentries.1,?_⟩
          rw [hentries.2]
          simp [ArgArray.push,hitems]
      · intro ha hin
        cases ho : array.overrun with
        | true =>
          rw [hbounds]
          · simp [ArgArray.push,hover,ho]
          · unfold growForPair ArgArray.push
            split
            · dsimp only [ArgArray.renew]
              split <;> omega
            · exact ha
          · simp [ArgArray.push,hover,ho]
        | false =>
          have hroom := growForPair_room ha (hin ho)
          have hpushed : (((growForPair array).push (some (intern key))).push
              (some value)).overrun=false := by
            rw [push_overrun,push_overrun,hover]
            simp only [ArgArray.push,hitems,length_append,length_cons,length_nil]
            exact ⟨⟨ho,by omega⟩,by omega⟩
          rw [hbounds,hpushed]
          · simp only [ArgArray.push]
            omega
          · intro _
            simp only [ArgArray.push,hitems,length_append,length_cons,length_nil]
            omega

/-- A call site with star arguments. The counts travel in one byte each, so
the compiler admits fewer than 256 of either kind. -/
structure Call (α ε : Type) where
  function : Option α
  /-- The slot for self of a method call, absent in a function call. -/
  self : Option (Option α)
  /-- The fixed positional arguments. -/
  positional : List (Option α)
  keywords : List (Option α×Option α)
  /-- The object after the star, or `none` for `MP_OBJ_NULL`. -/
  sequence : Option α
  /-- The object after the double star, or `none` for `MP_OBJ_NULL`. -/
  mapping : Option α
  /-- The positional count fits its byte. -/
  positional_lt : positional.length<256
  /-- The keyword count fits its byte. -/
  keywords_lt : keywords.length<256

/-- Explicit keywords laid out key, value, key, value. -/
def flatPairs (pairs : List (Option α×Option α)) : List (Option α) :=
  pairs.flatMap fun pair => [pair.1,pair.2]

/-- The slots of the value stack from the function upwards. -/
def Call.stack (call : Call α ε) : List (Option α) :=
  call.function::(call.self.toList++
    (call.positional++(flatPairs call.keywords++[call.sequence,call.mapping])))

/-- The packed operand of the call instruction. -/
def Call.nArgsNKw (call : Call α ε) : ℕ :=
  call.keywords.length*256+call.positional.length

/-- The object passed as self, if the method lookup found one. -/
def Call.selfArg (call : Call α ε) : Option α := call.self.join

/-- The items of the sequence, or the exception its iteration raises. -/
def seqItems : Option (PosSeq α ε)→Except ε (List α)
  | none => .ok []
  | some (.array items) => .ok items
  | some (.generic run) => match run.raised with
    | none => .ok run.items
    | some e => .error e

/-- The entries of the mapping, or the exception that interrupts them. -/
def mappingItems (intern : α→α) : Option (KwMapping α ε)→Except ε (List (Option α))
  | none => .ok []
  | some (.dict _ table) => .ok (dictEntries intern table)
  | some (.generic keys getItem) => mappingEntries intern getItem keys.raised keys.items

/-- What a call with star arguments must receive: self, the positional
arguments, the items of the sequence, then all keyword pairs, with the two
counts. An exception of the sequence comes before one of the mapping. -/
def expected (objects : Objects α ε) (call : Call α ε) : Except ε (List (Option α)×ℕ×ℕ) :=
  match seqItems (call.sequence.map objects.seq) with
  | .error e => .error e
  | .ok items => match mappingItems objects.intern (call.mapping.map objects.mapping) with
    | .error e => .error e
    | .ok pairs =>
      let positional := call.selfArg.toList.map some++(call.positional++items.map some)
      let keywords := flatPairs call.keywords++pairs
      .ok (positional++keywords,positional.length,keywords.length/2)

/-- The array is the expected one, the counts are right, an exception of the
arguments is passed on, and no write went past the allocated entries. -/
def Delivers (objects : Objects α ε) (call : Call α ε) (prepared : Prepared α ε) : Prop :=
  prepared.array.overrun=false ∧
    match expected objects call,prepared.result with
    | .error e,.error e' => e=e'
    | .ok (args,nArgs,nKw),.ok record =>
      record.function=call.function ∧ record.args=args ∧ record.nArgs=nArgs ∧ record.nKw=nKw
    | _,_ => False

/-- Entries the array has room for once the sequence has been extracted. -/
def seqAlloc (call : Call α ε) (dictLen : ℕ) : Option (PosSeq α ε)→ℕ
  | none => 1+call.positional.length+2*(call.keywords.length+dictLen)
  | some (.array items) => 1+call.positional.length+items.length+2*(call.keywords.length+dictLen)
  | some (.generic run) =>
    grownAlloc (1+call.positional.length+2*(call.keywords.length+dictLen)+3)
      (call.selfArg.toList.length+call.positional.length+run.items.length)

/-- Entries that are copied without a check: the explicit keywords, and the
slots of a dict. -/
def uncheckedEntries (call : Call α ε) : Option (KwMapping α ε)→ℕ
  | some (.dict _ table) => 2*call.keywords.length+2*(table.filterMap id).length
  | _ => 2*call.keywords.length

/-- The sequence raises, or what is copied after it without a check fits in
the room that the sequence leaves. -/
def Fits (objects : Objects α ε) (call : Call α ε) : Prop :=
  let kwDict := call.mapping.map objects.mapping
  let posSeq := call.sequence.map objects.seq
  ∀ items,seqItems posSeq=.ok items→
    call.selfArg.toList.length+call.positional.length+items.length+uncheckedEntries call kwDict≤
      seqAlloc call (kwDictLen kwDict) posSeq

/-- The packed operand gives back both counts. -/
theorem nArgsNKw_decode (call : Call α ε) : call.nArgsNKw%256=call.positional.length ∧
      call.nArgsNKw/256%256=call.keywords.length := by
  have hp := call.positional_lt
  have hk := call.keywords_lt
  unfold Call.nArgsNKw
  omega

/-- Two slots for every explicit keyword. -/
theorem flatPairs_length (pairs : List (Option α×Option α)) :
    (flatPairs pairs).length=2*pairs.length := by
  induction pairs with
  | nil => rfl
  | cons pair pairs ih =>
    simp only [flatPairs,flatMap_cons,length_append,length_cons,length_nil] at ih ⊢
    omega

/-- Two entries for every filled slot of a dict. -/
theorem dictEntries_length (table : List (Option (α×α))) :
    (dictEntries intern table).length=2*(table.filterMap id).length := by
  induction table with
  | nil => rfl
  | cons slot table ih =>
    cases slot with
    | none => simpa [dictEntries] using ih
    | some pair =>
      simp only [dictEntries,flatMap_cons,length_append,length_cons,
        length_nil,filterMap_cons,id] at ih ⊢
      omega

/-- The function reads back the parts of the call from the stack. -/
theorem mpCallPrepareArgsNKwVar_stack (objects : Objects α ε) (call : Call α ε) :
    mpCallPrepareArgsNKwVar objects call.self.isSome call.nArgsNKw call.stack=
      (let kwDict := call.mapping.map objects.mapping
       let extracted := extractSeq call.selfArg call.positional call.keywords.length
         (kwDictLen kwDict) (call.sequence.map objects.seq)
       match extracted.2 with
       | some e => ⟨extracted.1,.error e⟩
       | none =>
         let withKw := extracted.1.copy (flatPairs call.keywords)
         let mapped := extractMapping objects.intern withKw kwDict
         match mapped.2 with
         | some e => ⟨mapped.1,.error e⟩
         | none => ⟨mapped.1,.ok ⟨call.function,mapped.1.items,extracted.1.items.length,
             (mapped.1.items.length-extracted.1.items.length)/2,mapped.1.alloc⟩⟩) := by
  obtain ⟨hp,hk⟩ := nArgsNKw_decode call
  have hlen := flatPairs_length call.keywords
  have hargs : (if call.self.isSome then call.stack.tail.tail else call.stack.tail)=
      call.positional++(flatPairs call.keywords++[call.sequence,call.mapping]) := by
    cases hs : call.self <;> simp [Call.stack,hs]
  have hself : (if call.self.isSome then call.stack.tail.head?.join else none)=call.selfArg := by
    cases hs : call.self <;> simp [Call.stack,Call.selfArg,hs]
  have hseq : (call.positional++(flatPairs call.keywords++[call.sequence,call.mapping]))[
      call.positional.length+2*call.keywords.length]?=some call.sequence := by
    rw [List.getElem?_append_right (by omega),List.getElem?_append_right (by omega)]
    simp [hlen]
  have hmap : (call.positional++(flatPairs call.keywords++[call.sequence,call.mapping]))[
      call.positional.length+2*call.keywords.length+1]?=some call.mapping := by
    rw [List.getElem?_append_right (by omega),List.getElem?_append_right (by omega)]
    have hone : call.positional.length+2*call.keywords.length+1-call.positional.length-
        (flatPairs call.keywords).length=1 := by omega
    rw [hone]
    rfl
  have hkws : (flatPairs call.keywords++[call.sequence,call.mapping]).take
      (2*call.keywords.length)=flatPairs call.keywords := by
    rw [←hlen,take_left]
  unfold mpCallPrepareArgsNKwVar
  simp only [hp,hk,hargs,hself,hseq,hmap,take_left,drop_left,hkws]
  rfl

/-- The sequence part writes inside the array in all three of its routes,
and leaves self, the fixed arguments and the items. -/
theorem extractSeq_spec (call : Call α ε) (dictLen : ℕ) (posSeq : Option (PosSeq α ε)) :
    (extractSeq call.selfArg call.positional call.keywords.length dictLen posSeq).1.overrun=false ∧
      match seqItems posSeq with
      | .error e => (extractSeq call.selfArg call.positional call.keywords.length dictLen
          posSeq).2=some e
      | .ok items =>
        (extractSeq call.selfArg call.positional call.keywords.length dictLen posSeq).2=none ∧
        (extractSeq call.selfArg call.positional call.keywords.length dictLen posSeq).1.items=
          call.selfArg.toList.map some++(call.positional++items.map some) ∧
        (extractSeq call.selfArg call.positional call.keywords.length dictLen posSeq).1.alloc=
          seqAlloc call dictLen posSeq ∧
        call.selfArg.toList.length+call.positional.length+items.length≤
          seqAlloc call dictLen posSeq := by
  have hself : call.selfArg.toList.length≤1 := by cases call.selfArg <;> simp
  have fill (alloc : ℕ) (rest : List (Option α)) :
      (((ArgArray.new alloc).copy (call.selfArg.toList.map some)).copy rest).items=
          call.selfArg.toList.map some++rest ∧
        (((ArgArray.new alloc).copy (call.selfArg.toList.map some)).copy rest).alloc=alloc ∧
        (call.selfArg.toList.length+rest.length≤alloc→
          (((ArgArray.new alloc).copy (call.selfArg.toList.map some)).copy rest).overrun=false) := by
    obtain ⟨hi,ha⟩ := copy_items (ArgArray.new alloc) (call.selfArg.toList.map some)
    obtain ⟨hri,hra⟩ := copy_items ((ArgArray.new alloc).copy (call.selfArg.toList.map some)) rest
    have hex := copy_exact (copy_exact (new_exact alloc) (call.selfArg.toList.map some)) rest
    refine ⟨by rw [hri,hi]; rfl,by rw [hra,ha]; rfl,fun hfit => hex.mpr ?_⟩
    rw [hri,hra,hi,ha]
    simpa [ArgArray.new] using hfit
  cases posSeq with
  | none =>
    obtain ⟨hi,ha,ho⟩ := fill (1+call.positional.length+2*(call.keywords.length+dictLen))
      call.positional
    refine ⟨ho (by omega),rfl,by simpa [extractSeq] using hi,ha,?_⟩
    simp only [seqAlloc,length_nil]
    omega
  | some route =>
    cases route with
    | array items =>
      obtain ⟨hi,ha,ho⟩ := fill
        (1+call.positional.length+items.length+2*(call.keywords.length+dictLen))
        (call.positional++items.map some)
      have hlen : (call.positional++items.map some).length=
          call.positional.length+items.length := by simp
      refine ⟨ho (by omega),rfl,hi,ha,?_⟩
      simp only [seqAlloc]
      omega
    | generic run =>
      obtain ⟨hi,ha,ho⟩ := fill (1+call.positional.length+2*(call.keywords.length+dictLen)+3)
        call.positional
      have hlen : (call.selfArg.toList.map some++call.positional).length=
          call.selfArg.toList.length+call.positional.length := by simp
      have hstart : (((ArgArray.new
          (1+call.positional.length+2*(call.keywords.length+dictLen)+3)).copy
          (call.selfArg.toList.map some)).copy call.positional).Grown
          (1+call.positional.length+2*(call.keywords.length+dictLen)+3) :=
        ⟨ho (by omega),by rw [ha,hi,grownAlloc_of_le (by omega)]⟩
      obtain ⟨hgrown,hall⟩ := foldl_pushItem_grown (by omega) hstart run.items
      refine ⟨hgrown.inside,?_⟩
      cases hr : run.raised with
      | some e =>
        simp only [seqItems,hr]
        exact hr
      | none =>
        simp only [seqItems,hr]
        refine ⟨hr,?_,?_,le_grownAlloc (by omega) _⟩
        · rw [extractSeq,hall,hi,append_assoc]
        · rw [extractSeq,hgrown.size,hall,hi]
          simp [seqAlloc,add_assoc]

/-- The mapping part appends the mapping's entries to an array whose record
is exact, and the record then says whether the unchecked entries fitted. -/
theorem extractMapping_spec {array : ArgArray α} (hex : array.Exact)
    (ha : 0<array.alloc) (kwDict : Option (KwMapping α ε)) :
    (match mappingItems intern kwDict with
      | .error e => (extractMapping intern array kwDict).2=some e
      | .ok entries => (extractMapping intern array kwDict).2=none ∧
          (extractMapping intern array kwDict).1.items=array.items++entries) ∧
    ((extractMapping intern array kwDict).1.overrun=false ↔
      array.items.length+(match kwDict with
        | some (.dict _ table) => 2*(table.filterMap id).length
        | _ => 0)≤array.alloc) := by
  cases kwDict with
  | none => exact ⟨⟨rfl,by simp [extractMapping]⟩,hex⟩
  | some route =>
    cases route with
    | dict usedAtStart table =>
      obtain ⟨hi,hal⟩ := copy_items array (dictEntries intern table)
      have hcopy : (array.copy (dictEntries intern table)).overrun=false ↔ _ :=
        copy_exact hex (dictEntries intern table)
      refine ⟨⟨rfl,by rw [extractMapping,copyDict_eq,hi]⟩,?_⟩
      rw [extractMapping,copyDict_eq,hcopy,hi,hal,length_append,dictEntries_length]
    | generic keys getItem =>
      obtain ⟨hentries,hbounds⟩ := copyKeys_spec intern getItem keys.raised array keys.items
      refine ⟨?_,?_⟩
      · cases hm : mappingEntries intern getItem keys.raised keys.items with
        | error e => simpa only [mappingItems,extractMapping,hm] using hentries
        | ok entries => simpa only [mappingItems,extractMapping,hm] using hentries
      · rw [extractMapping,hbounds ha hex.mp]
        exact hex

/-- For every call, the argument array is the expected one and no write goes
past its allocation if and only if the entries copied without a check fit in
the room left after the sequence. -/
theorem delivers_iff_fits (objects : Objects α ε) (call : Call α ε) : Delivers objects call
        (mpCallPrepareArgsNKwVar objects call.self.isSome call.nArgsNKw call.stack) ↔
      Fits objects call := by
  obtain ⟨hinside,hseq⟩ := extractSeq_spec call (kwDictLen (call.mapping.map objects.mapping))
    (call.sequence.map objects.seq)
  rw [mpCallPrepareArgsNKwVar_stack]
  unfold Delivers Fits expected
  dsimp only
  generalize extractSeq call.selfArg call.positional call.keywords.length
    (kwDictLen (call.mapping.map objects.mapping)) (call.sequence.map objects.seq)=extracted
    at hinside hseq ⊢
  cases hitems : seqItems (call.sequence.map objects.seq) with
  | error e =>
    rw [hitems] at hseq
    simp [hseq,hinside]
  | ok items =>
    rw [hitems] at hseq
    obtain ⟨hnone,hsi,hsa,hsl⟩ := hseq
    have hsilen : extracted.1.items.length=
        call.selfArg.toList.length+call.positional.length+items.length := by
      rw [hsi]
      simp [Nat.add_assoc]
    have hex : extracted.1.Exact := by
      unfold ArgArray.Exact
      rw [hsa,hsilen]
      exact ⟨fun _ => hsl,fun _ => hinside⟩
    obtain ⟨hki,hka⟩ := copy_items extracted.1 (flatPairs call.keywords)
    have hkex := copy_exact hex (flatPairs call.keywords)
    have hkl := flatPairs_length call.keywords
    have hpos : 0<(extracted.1.copy (flatPairs call.keywords)).alloc := by
      rw [hka,hsa]
      rcases call.sequence.map objects.seq with _|(_|_)
      · simp only [seqAlloc]; omega
      · simp only [seqAlloc]; omega
      · exact Nat.mul_pos (by omega) (Nat.two_pow_pos _)
    obtain ⟨hmap,hover⟩ := extractMapping_spec objects.intern hkex hpos
      (call.mapping.map objects.mapping)
    have hfits : (extractMapping objects.intern (extracted.1.copy (flatPairs call.keywords))
        (call.mapping.map objects.mapping)).1.overrun=false ↔
        call.selfArg.toList.length+call.positional.length+items.length+
          uncheckedEntries call (call.mapping.map objects.mapping)≤
        seqAlloc call (kwDictLen (call.mapping.map objects.mapping))
          (call.sequence.map objects.seq) := by
      rw [hover,hka,hsa,hki,List.length_append,hkl,hsilen]
      rcases call.mapping.map objects.mapping with _|(_|_) <;>
        simp only [uncheckedEntries] <;> omega
    simp only [hnone,Except.ok.injEq,forall_eq']
    rw [←hfits]
    cases hm : mappingItems objects.intern (call.mapping.map objects.mapping) with
    | error e =>
      rw [hm] at hmap
      simp [hmap]
    | ok entries =>
      rw [hm] at hmap
      obtain ⟨hmnone,hmi⟩ := hmap
      have hkeywords : (extracted.1.items++flatPairs call.keywords++entries).length-
          extracted.1.items.length=(flatPairs call.keywords++entries).length := by
        simp only [List.length_append]
        omega
      simp only [hmnone,hmi,hki,hkeywords]
      simp [hsi,List.append_assoc]

/-- Objects where 1 is an iterator over six items and there is no mapping. -/
def sixItemIterator : Objects ℕ ℕ where
  seq _ := .generic ⟨[10,11,12,13,14,15],none⟩
  mapping _ := .dict 0 []
  intern key := key

/-- The call `f(*it, key=value)`: no fixed argument and one keyword. -/
def starAndKeyword : Call ℕ ℕ where
  function := some 0
  self := none
  positional := []
  keywords := [(some 2,some 3)]
  sequence := some 1
  mapping := none
  positional_lt := by decide
  keywords_lt := by decide

/-- Six entries are allocated and six items fill them, so the keyword pair is
written at the indices 6 and 7, past the end of the array. -/
theorem starAndKeyword_overrun : ¬Delivers sixItemIterator starAndKeyword
      (mpCallPrepareArgsNKwVar sixItemIterator starAndKeyword.self.isSome
        starAndKeyword.nArgsNKw starAndKeyword.stack) := by
  intro h
  have hoverrun : (mpCallPrepareArgsNKwVar sixItemIterator starAndKeyword.self.isSome
      starAndKeyword.nArgsNKw starAndKeyword.stack).array.overrun=true := by decide
  exact Bool.false_ne_true (h.1.symm.trans hoverrun)

end MicroPython.CallPrepareArgs
