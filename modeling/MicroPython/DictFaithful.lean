import MicroPython.DictInvariant
import Mathlib.Data.List.Forall2

/-!
# Dicts over runs

What the methods of dicts mean for the items of the dicts, and that they do so. All of them
do, in every run, except for the method that pops an item of an OrderedDict with two items or
more: it leaves a deleted key at the beginning of an array that is searched for as many keys as
are left, and the last of them is not found any more.
-/

namespace MicroPython.DictFaithful

open Option List OpenAddressing MapTable AssociationList HashedMap DictObject DictInvariant InputMachine
open OrderedMap (Lays comparison_same slotOf)

variable {κ ν : Type} [DecidableEq κ] (keys : Keys κ)

/-! ## What the methods mean -/

/-- What is in a dict. -/
structure Contents (κ ν : Type) where
  type : DictType
  /-- The items, in the order in which they are enumerated. -/
  items : List (κ×Option ν)

/-- What is in a dict object. -/
def contentsOf (d : MpObjDict κ ν) : Contents κ ν := ⟨d.type,dictItems d.map⟩

/-- The items after others were stored. -/
def storeAll (items : List (κ×Option ν)) : List (κ×Option ν)→List (κ×Option ν)
  | [] => items
  | (k,v)::more => storeAll (store keys.same items k v) more

/-- The items after those of an iterable were stored, and its error. -/
def storeSome (items : List (κ×Option ν)) : List (Option (κ×ν))→List (κ×Option ν)×Option (Raised κ)
  | [] => (items,none)
  | none::_ => (items,some (.valueError "dict update sequence has wrong length"))
  | some (k,v)::more => storeSome (store keys.same items k (some v)) more

/-- The items after the positional argument of an update. -/
def meaningFrom (dicts : List (Contents κ ν)) (self : ℕ) (items : List (κ×Option ν)) :
    Option (Source κ ν)→List (κ×Option ν)×Option (Raised κ)
  | none => (items,none)
  | some (.dict other) =>
    if other=self then (items,none)
    else (storeAll keys items ((dicts[other]?.map Contents.items).getD []),none)
  | some (.pairs pairs) => storeSome keys items pairs

/-- The items after an update. -/
def meaningUpdate (dicts : List (Contents κ ν)) (self : ℕ) (items : List (κ×Option ν))
    (source : Option (Source κ ν)) (kwargs : List (κ×ν)) :
    List (κ×Option ν)×Option (Raised κ) :=
  match meaningFrom keys dicts self items source with
  | (items,some e) => (items,some e)
  | (items,none) => (storeAll keys items (kwargs.map fun p => (p.1,some p.2)),none)

/-- What a dict has for a key, or what is returned without it. -/
def valueOr (constNone : ν) (items : List (κ×Option ν)) (k : κ) (default : Option ν)
    (kind : LookupKind) : Except (Raised κ) ν :=
  match (get keys.same items k).join with
  | some v => .ok v
  | none => missingValue constNone k default kind

/-- What is meant by a method of a dict. -/
def onContents (dicts : List (Contents κ ν)) (self : ℕ)
    (method : List (κ×Option ν)→List (κ×Option ν)×Reply κ ν) :
    List (Contents κ ν)×Reply κ ν :=
  match dicts[self]? with
  | none => (dicts,.noObject)
  | some c => (dicts.set self ⟨c.type,(method c.items).1⟩,(method c.items).2)

/-- An item is popped: the first one that is enumerated. -/
def meaningPopitem : List (κ×Option ν)→List (κ×Option ν)×Reply κ ν
  | [] => ([],.raised (.keyError "popitem(): dictionary is empty"))
  | e::items => (items,.item (.full e.1) e.2)

/-- A key gets a value when it has none. -/
def meaningSetdefault (constNone : ν) (items : List (κ×Option ν)) (k : κ) (default : Option ν) :
    List (κ×Option ν)×Reply κ ν :=
  match (get keys.same items k).join with
  | some v => (items,.value v)
  | none => (store keys.same items k (some (default.getD constNone)),
      .value (default.getD constNone))

/-- A dict is made. -/
def meaningNew (dicts : List (Contents κ ν)) (type : DictType) (source : Option (Source κ ν))
    (kwargs : List (κ×ν)) : List (Contents κ ν)×Reply κ ν :=
  match meaningUpdate keys dicts dicts.length [] source kwargs with
  | (_,some e) => (dicts,.raised e)
  | (items,none) => (dicts++[⟨type,items⟩],.object dicts.length)

/-- A dict is copied. -/
def meaningCopy (dicts : List (Contents κ ν)) (self : ℕ) : List (Contents κ ν)×Reply κ ν :=
  match dicts[self]? with
  | none => (dicts,.noObject)
  | some c => (dicts++[c],.object dicts.length)

/-- What is meant by an operation: what is in the dicts afterwards, and the reply. -/
def meaning (constNone : ν) (dicts : List (Contents κ ν)) : DictOp κ ν→List (Contents κ ν)×Reply κ ν
  | .makeNew type source kwargs => meaningNew keys dicts type source kwargs
  | .store self k v => onContents dicts self fun items =>
      (store keys.same items k (some v),.nothing)
  | .delete self k => onContents dicts self fun items =>
      (erase keys.same items k,.ofDone (valueOr keys constNone items k none .removeIfFound))
  | .get self k default => onContents dicts self fun items =>
      (items,.ofValue (valueOr keys constNone items k default .lookup))
  | .pop self k default => onContents dicts self fun items =>
      (erase keys.same items k,.ofValue (valueOr keys constNone items k default .removeIfFound))
  | .popitem self => onContents dicts self meaningPopitem
  | .setdefault self k default => onContents dicts self fun items =>
      meaningSetdefault keys constNone items k default
  | .update self source kwargs => onContents dicts self fun items =>
      ((meaningUpdate keys dicts self items source kwargs).1,
        .ofRaised (meaningUpdate keys dicts self items source kwargs).2)
  | .copy self => meaningCopy dicts self
  | .clear self => onContents dicts self fun _ => ([],.nothing)

/-! ## Dicts that behave -/

/-- A dict behaves as the finite map of its items. -/
structure Behaves (depth : ℕ) (d : MpObjDict κ ν) : Prop where
  distinct : Distinct keys.same (dictItems d.map)
  /-- `len` is the number of keys. -/
  len_eq : d.map.used=(dictItems d.map).length
  valued : ∀ k,get keys.same (dictItems d.map) k≠some none
  /-- A lookup finds exactly the keys that are there, with their values. -/
  lookup : ∀ k,∃ slot,mpMapLookup keys plenty depth d.map k .lookup=.done d.map slot∧
    slot.map d.map.valueAt=get keys.same (dictItems d.map) k

/-- What is in a dict is like what is meant. -/
def Like (c c' : Contents κ ν) : Prop := c.type=c'.type∧Alike keys c.type c.items c'.items

/-- An operation does what is meant by it, and all dicts behave afterwards. -/
def Faithful (depth : ℕ) (constNone : ν) (dicts : List (MpObjDict κ ν)) (op : DictOp κ ν) : Prop :=
  ∃ dicts' reply,op.step keys depth constNone dicts=.ok (dicts',reply)∧
    (∀ d∈dicts',Behaves keys depth d)∧
    reply=(meaning keys constNone (dicts.map contentsOf) op).2∧
    List.Forall₂ (Like keys) (dicts'.map contentsOf)
      (meaning keys constNone (dicts.map contentsOf) op).1

/-- No item is popped of an OrderedDict with two items or more. -/
def Sound (dicts : List (MpObjDict κ ν)) : DictOp κ ν→Prop
  | .popitem self => ∀ d,dicts[self]?=some d → d.type=.ordereddict → d.map.used≤1
  | _ => True

variable {keys}

theorem behaves_of_good {d : MpObjDict κ ν} (h : Good keys d) (depth : ℕ) :
    Behaves keys (depth+2) d := ⟨h.distinct,h.used_eq,h.valued,h.lookup depth⟩

/-! ## Methods -/

/-- A method does what is meant by it to the items of a dict, which stays good. -/
def Meets {α : Type} (keys : Keys κ) (type : DictType) (outcome : Outcome (MpMap κ ν) α)
    (expected : List (κ×Option ν)×α) : Prop :=
  ∃ map',outcome=.done map' expected.2∧Good keys ⟨type,map'⟩∧
    Alike keys type (dictItems map') expected.1

variable {type : DictType} {items : List (κ×Option ν)} {α : Type}

theorem alike_store {items' : List (κ×Option ν)}
    (h : Alike keys type items items') (k : κ) (v : Option ν) :
    Alike keys type (store keys.same items k v) (store keys.same items' k v) := by
  refine ⟨fun hordered => by rw [h.order hordered],fun x => ?_⟩
  rw [get_store (comparison_same keys),get_store (comparison_same keys),h.values]

/-- Items that are like others that are alike. -/
theorem Alike.trans {a b c : List (κ×Option ν)} (h : Alike keys type a b)
    (h' : Alike keys type b c) : Alike keys type a c :=
  ⟨fun hordered => (h.order hordered).trans (h'.order hordered),
    fun x => (h.values x).trans (h'.values x)⟩

theorem alike_storeAll (more : List (κ×Option ν)) :
    ∀ {items items' : List (κ×Option ν)},Alike keys type items items' →
      Alike keys type (storeAll keys items more) (storeAll keys items' more) := by
  induction more with
  | nil => exact fun h => h
  | cons e more ih => exact fun h => ih (alike_store h e.1 e.2)

/-- What is meant by storing the items of an iterable in items that are alike. -/
theorem alike_storeSome (more : List (Option (κ×ν))) :
    ∀ {items items' : List (κ×Option ν)},Alike keys type items items' →
      Alike keys type (storeSome keys items more).1 (storeSome keys items' more).1∧
        (storeSome keys items more).2=(storeSome keys items' more).2 := by
  induction more with
  | nil => exact fun h => ⟨h,rfl⟩
  | cons e more ih =>
    intro items items' h
    cases e with
    | none => exact ⟨h,rfl⟩
    | some p => exact ih (alike_store h p.1 (some p.2))

theorem Meets.like {outcome : Outcome (MpMap κ ν) α}
    {items' : List (κ×Option ν)} {a : α} (h : Meets keys type outcome (items,a))
    (hlike : Alike keys type items items') : Meets keys type outcome (items',a) := by
  obtain ⟨map',houtcome,hgood,halike⟩ := h
  exact ⟨map',houtcome,hgood,Alike.trans halike hlike⟩

variable {d : MpObjDict κ ν}

theorem meets_storeValue (h : Good keys d) (depth : ℕ) (k : κ) (v : ν) :
    Meets keys d.type (storeValue keys (depth+2) d.map k (some v))
      (store keys.same (dictItems d.map) k (some v),()) := by
  obtain ⟨map',slot,hlookup,hadds⟩ := h.add depth k
  refine ⟨map'.setValue slot (some v),?_,hadds.stores v⟩
  rw [storeValue,hlookup]
  rfl

/-- Values are stored. -/
theorem meets_storeItems (depth : ℕ) (more : List (κ×Option ν)) :
    ∀ {d : MpObjDict κ ν},Good keys d → (∀ e∈more,e.2≠none) →
      Meets keys d.type (storeItems keys (depth+2) more d.map)
        (storeAll keys (dictItems d.map) more,()) := by
  induction more with
  | nil => exact fun h _ => ⟨_,rfl,h,Alike.refl keys _ _⟩
  | cons e more ih =>
    intro d h hvalued
    obtain ⟨k,v⟩ := e
    cases v with
    | none => exact absurd rfl (hvalued (k,none) mem_cons_self)
    | some v =>
      obtain ⟨map',hstore,hgood,halike⟩ := meets_storeValue h depth k v
      rw [storeItems,hstore]
      exact (ih hgood fun e he => hvalued e (mem_cons_of_mem _ he)).like
        (alike_storeAll more halike)

/-- The items of an iterable are stored. -/
theorem meets_storePairs (depth : ℕ) (more : List (Option (κ×ν))) :
    ∀ {d : MpObjDict κ ν},Good keys d → Meets keys d.type (storePairs keys (depth+2) more d.map)
        (storeSome keys (dictItems d.map) more) := by
  induction more with
  | nil => exact fun h => ⟨_,rfl,h,Alike.refl keys _ _⟩
  | cons e more ih =>
    intro d h
    cases e with
    | none => exact ⟨_,rfl,h,Alike.refl keys _ _⟩
    | some p =>
      obtain ⟨map',hstore,hgood,halike⟩ := meets_storeValue h depth p.1 p.2
      obtain ⟨map'',hrest,hgood',halike'⟩ := ih hgood
      obtain ⟨hlike,hreply⟩ := alike_storeSome more halike
      refine ⟨map'',?_,hgood',Alike.trans halike' hlike⟩
      rw [storePairs,hstore,storeSome,←hreply]
      exact hrest

section

variable (h : Good keys d) (depth : ℕ) (constNone : ν) (k : κ) (default : Option ν)
include h

/-- The value of a key, or what is returned without it, is looked up. -/
theorem meets_get :
    Meets keys d.type (dictGetHelper keys (depth+2) constNone d.map k default .lookup)
      (dictItems d.map,valueOr keys constNone (dictItems d.map) k default .lookup) := by
  obtain ⟨slot,hlookup,hvalue⟩ := h.lookup depth k
  refine ⟨d.map,?_,h,Alike.refl keys _ _⟩
  rw [dictGetHelper,hlookup,valueOr,←hvalue]
  cases slot with
  | none =>
    cases missingValue constNone k default .lookup with
    | error e => rfl
    | ok v => rfl
  | some slot =>
    simp only [Outcome.andThen,bind_some,map_some,join_some]
    cases d.map.valueAt slot with
    | some v => rfl
    | none =>
      cases missingValue constNone k default .lookup with
      | error e => rfl
      | ok v => rfl

/-- A key is taken out, when it is there. -/
theorem meets_remove :
    Meets keys d.type (dictGetHelper keys (depth+2) constNone d.map k default .removeIfFound)
      (erase keys.same (dictItems d.map) k,
        valueOr keys constNone (dictItems d.map) k default .removeIfFound) := by
  cases h.remove depth k with
  | inl habsent =>
    rw [erase_of_none habsent.1]
    refine ⟨d.map,?_,h,Alike.refl keys _ _⟩
    rw [dictGetHelper,habsent.2,valueOr,habsent.1]
    cases missingValue constNone k default .removeIfFound with
    | error e => rfl
    | ok v => rfl
  | inr hfound =>
    obtain ⟨map',slot,hlookup,hremoves⟩ := hfound
    refine ⟨map'.setValue slot none,?_,hremoves.good,hremoves.alike⟩
    have hvalued := h.valued k
    rw [dictGetHelper,hlookup,valueOr]
    rw [hremoves.value_eq] at hvalued ⊢
    cases hvalue : map'.valueAt slot with
    | none => exact absurd (congrArg some hvalue) hvalued
    | some v =>
      simp only [Outcome.andThen,bind_some,join_some,hvalue,map_some]
      rfl

/-- A key gets a value when it has none. -/
theorem meets_setdefault :
    Meets keys d.type
      ((dictGetHelper keys (depth+2) constNone d.map k default .addIfNotFound).andThen
        fun map value => .done map (.ofValue value))
      (meaningSetdefault keys constNone (dictItems d.map) k default) := by
  obtain ⟨map',slot,hlookup,hadds⟩ := h.add depth k
  have hvalued := h.valued k
  have hvalue := hadds.value_eq
  rw [dictGetHelper,hlookup,meaningSetdefault]
  cases hget : get keys.same (dictItems d.map) k with
  | none =>
    rw [hget,getD_none] at hvalue
    have hmissing : missingValue constNone k default .addIfNotFound=
        .ok (default.getD constNone) := by
      cases default with
      | none => rfl
      | some v => rfl
    simp only [Outcome.andThen,bind_some,hvalue,map_none,hmissing,if_true]
    exact ⟨_,rfl,hadds.stores _⟩
  | some w =>
    cases w with
    | none => exact absurd hget hvalued
    | some v =>
      rw [hget,getD_some] at hvalue
      have hstores := hadds.stores v
      rw [store_of_get hget,←hvalue,setValue_valueAt] at hstores
      simp only [Outcome.andThen,bind_some,hvalue,map_some]
      exact ⟨map',rfl,hstores⟩

end

/-- A dict is cleared. -/
theorem meets_clear (h : Good keys d) :
    Meets keys d.type (.done (mpMapClear d.map) (.nothing : Reply κ ν)) ([],.nothing) := by
  have hitems : dictItems (mpMapClear d.map)=[] := rfl
  refine ⟨mpMapClear d.map,rfl,?_,by rw [hitems]; exact Alike.refl keys _ _⟩
  cases h with
  | dict hrepresents _ =>
    refine .dict (represents_clear hrepresents) fun x v hholds => ?_
    rw [holds_iff_elem] at hholds
    obtain ⟨e,he,_⟩ := hholds
    cases he
  | ordereddict hlays _ _ =>
    exact .ordereddict (OrderedMap.lays_clear hlays) (fun e he => nomatch he)
      fun e he => nomatch he

/-! ## Items that are popped -/

variable {map : MpMap κ ν}

/-- The first item of a hash table is popped. -/
theorem popitem_dict (h : Represents keys map)
    (hvalued : ∀ x v,Holds keys map x v → v≠none) {next : ℕ} {k : κ} {v : Option ν}
    {rest : List (κ×Option ν)} (hnext : dictIterNext map 0=some next)
    (hslot : slotAt map next=⟨.full k,v⟩) (hitems : dictItems map=(k,v)::rest) :
    Good keys ⟨.dict,(dictPopitem map).1⟩∧
      Alike keys .dict (dictItems (dictPopitem map).1) rest := by
  have hvacated := vacated_popitem hnext
  have hk : cellAt map.cells next=.full k := by rw [cellAt_cells,hslot]
  have hholds := hvacated.holds h hk rfl
  have hrepresents := hvacated.represents h hk (.inl rfl)
  refine ⟨.dict hrepresents fun x w hw => hvalued x w ((hholds x w).mp hw).2,
    (fun h => nomatch h),fun x => ?_⟩
  have hdistinct := distinct_dictItems h
  have herase : erase keys.same (dictItems map) k=rest := by
    rw [hitems]
    exact if_pos (same_refl keys k)
  rw [←herase,get_erase (comparison_same keys) hdistinct]
  refine Option.ext fun w => ?_
  rw [←(models_dictItems hrepresents).holds x w,hholds,(models_dictItems h).holds x w]
  cases keys.same k x with
  | true => exact iff_of_false (fun h => nomatch h.1) fun h => nomatch h
  | false => exact and_iff_right rfl

variable {e : κ×Option ν} {room : List (Elem κ ν)}

/-- The first slot of an ordered array with items is the next one. -/
theorem dictIterNext_lays (h : Lays keys map (e::items) room) : dictIterNext map 0=some 0 := by
  have htable : (map.table.take map.alloc).drop 0=slotOf e::(items.map slotOf++room) := by
    rw [drop_zero,h.alloc_eq,take_length,h.table_eq]
    rfl
  rw [dictIterNext,htable,List.findIdx?_cons]
  rfl

/-- An ordered array of which an item was popped has a deleted key at the beginning. -/
theorem table_popitem (h : Lays keys map (e::items) room) :
    (dictPopitem map).1.table=⟨.deleted,none⟩::(items.map slotOf++room)∧
      (dictPopitem map).1.used=items.length∧
      (dictPopitem map).1.alloc=(dictPopitem map).1.table.length∧
      (dictPopitem map).1.isOrdered=true∧(dictPopitem map).2=.item (.full e.1) e.2 := by
  rw [dictPopitem,dictIterNext_lays h]
  refine ⟨?_,?_,?_,h.ordered,?_⟩
  · rw [h.table_eq]
    rfl
  · rw [h.used_eq]
    rfl
  · exact h.alloc_eq.trans length_set.symm
  · rw [h.table_eq]
    rfl

/-- The only item of an ordered array is popped. -/
theorem popitem_single (h : Lays keys map [e] room) :
    Lays keys (dictPopitem map).1 [] (⟨.deleted,none⟩::room) := by
  obtain ⟨htable,hused,halloc,hordered,_⟩ := table_popitem h
  refine ⟨hordered,halloc,htable,hused,?_,?_,List.Pairwise.nil⟩
  · intro r hr
    cases mem_cons.mp hr with
    | inl heq =>
      rw [heq]
      rfl
    | inr hmem => exact h.free r hmem
  · exact fun _ d hd => nomatch hd

/-- An item is popped, if it is not one of several in an ordered array. -/
theorem meets_popitem (h : Good keys d) (hsound : d.type=.ordereddict → d.map.used≤1) :
    Meets keys d.type (.done (dictPopitem d.map).1 (dictPopitem d.map).2)
      (meaningPopitem (dictItems d.map)) := by
  cases hnext : dictIterNext d.map 0 with
  | none =>
    have hitems : dictItems d.map=[] := itemsFrom_none hnext
    rw [hitems,dictPopitem,hnext]
    refine ⟨d.map,rfl,h,?_⟩
    rw [hitems]
    exact Alike.refl keys _ _
  | some next =>
    obtain ⟨⟨k,v⟩,hslot,hitems⟩ := itemsFrom_some hnext
    rw [slotItem_eq_some] at hslot
    have hall : dictItems d.map=(k,v)::itemsFrom d.map (next+1) := hitems
    rw [hall]
    cases h with
    | dict hrepresents hvalued =>
      refine ⟨_,?_,popitem_dict hrepresents hvalued hnext hslot hall⟩
      rw [dictPopitem,hnext]
      exact congrArg (fun e : Elem κ ν => Outcome.done _ (Reply.item e.key e.value)) hslot
    | @ordereddict map items room hlays hvalued hcleared =>
      rw [dictItems_lays hlays] at hall
      rw [hall] at hlays
      have hlength := hlays.used_eq
      have hone := hsound rfl
      cases hrest : itemsFrom map (next+1) with
      | cons e more =>
        rw [hrest,length_cons,length_cons] at hlength
        dsimp only at hone
        omega
      | nil =>
        rw [hrest] at hlays
        have hsingle := popitem_single hlays
        refine ⟨(dictPopitem map).1,?_,.ordereddict hsingle (fun d hd => by cases hd) ?_,?_⟩
        · rw [(table_popitem hlays).2.2.2.2]
          rfl
        · intro r hr
          cases mem_cons.mp hr with
          | inl heq => rw [heq]
          | inr hmem => exact hcleared r hmem
        · rw [dictItems_lays hsingle]
          exact Alike.refl keys _ _

/-- The last of several keys of an ordered array is not found after an item was popped. -/
theorem popitem_loses_last {last : κ×Option ν}
    (h : Lays keys map (e::(items++[last])) room) (depth : ℕ) :
    mpMapLookup keys plenty (depth+1) (dictPopitem map).1 last.1 .lookup=
      .done (dictPopitem map).1 none := by
  obtain ⟨htable,hused,_,hordered,_⟩ := table_popitem h
  have htake : (dictPopitem map).1.table.take (dictPopitem map).1.used=
      ⟨.deleted,none⟩::items.map slotOf := by
    rw [htable,hused,length_append,length_singleton,take_succ_cons,
      map_append,append_assoc,←length_map slotOf,take_left]
  have hdistinct := (pairwise_append.mp (pairwise_cons.mp h.distinct).2).2.2
  rw [mpMapLookup]
  cases hptrs : compareOnlyPtrs keys (dictPopitem map).1 last.1 .lookup with
  | none => rfl
  | some comparePtrs =>
    have hnone : ((dictPopitem map).1.table.take (dictPopitem map).1.used).findIdx?
        (elemMatches keys comparePtrs last.1)=none := by
      rw [htake,List.findIdx?_eq_none_iff]
      intro r hr
      cases mem_cons.mp hr with
      | inl heq =>
        rw [heq]
        rfl
      | inr hmem =>
        obtain ⟨d,hd,heq⟩ := mem_map.mp hmem
        have hfalse := hdistinct d hd last mem_cons_self
        rw [Keys.same,Bool.or_eq_false_iff] at hfalse
        rw [←heq]
        show keys.matching comparePtrs last.1 d.1=false
        rw [Keys.matching,hfalse.1,hfalse.2,Bool.and_false,Bool.or_false]
    have hkind : LookupKind.lookup≠.addIfNotFound := by decide
    simp only [hordered,if_true,orderedLookup,hnone,if_pos hkind]

/-- An OrderedDict does not behave after one of several items was popped. -/
theorem not_behaves_popitem (h : Lays keys map items room) (hused : 1 < map.used) (depth : ℕ) :
    ¬Behaves keys (depth+1) ⟨.ordereddict,(dictPopitem map).1⟩ := by
  intro hbehaves
  rw [h.used_eq] at hused
  cases items with
  | nil => exact absurd hused (Nat.not_lt_zero _)
  | cons e more =>
    cases eq_nil_or_concat more with
    | inl hnil =>
      rw [hnil] at hused
      exact absurd hused (Nat.lt_irrefl 1)
    | inr hconcat =>
      obtain ⟨init,last,heq⟩ := hconcat
      rw [concat_eq_append] at heq
      rw [heq] at h
      obtain ⟨slot,hlookup,hvalue⟩ := hbehaves.lookup last.1
      rw [popitem_loses_last h depth] at hlookup
      cases hlookup
      -- the key is still enumerated
      have hmem : last∈dictItems (dictPopitem map).1 := by
        obtain ⟨htable,_,halloc,_,_⟩ := table_popitem h
        rw [dictItems_eq halloc,htable]
        refine mem_filterMap.mpr ⟨slotOf last,?_,rfl⟩
        refine mem_cons_of_mem _ (mem_append_left _ (mem_map.mpr ⟨last,?_,rfl⟩))
        exact mem_append_right _ mem_cons_self
      rw [get_of_mem (comparison_same keys) hbehaves.distinct last hmem last.1
        (same_refl keys last.1)] at hvalue
      cases hvalue

/-! ## Updates -/

/-- What is in the dicts at a place. -/
theorem items_at {β : Type} (dicts : List (MpObjDict α β)) (other : ℕ) :
    ((dicts.map contentsOf)[other]?.map Contents.items).getD []=
      (dicts[other]?.map fun d => dictItems d.map).getD [] := by
  rw [List.getElem?_map]
  cases dicts[other]? with
  | none => rfl
  | some d => rfl

theorem value_ne_none (h : Good keys d) : ∀ e∈dictItems d.map,e.2≠none := by
  intro e he hnone
  have hget := get_of_mem (comparison_same keys) h.distinct e he e.1 (same_refl keys e.1)
  rw [hnone] at hget
  exact h.valued e.1 hget

variable {dicts : List (MpObjDict κ ν)}

/-- A dict is updated from what is given. -/
theorem meets_updateFrom (hall : ∀ d∈dicts,Good keys d) (h : Good keys d) (depth self : ℕ)
    (source : Option (Source κ ν)) :
    Meets keys d.type (updateFrom keys (depth+2) dicts self d.map source)
      (meaningFrom keys (dicts.map contentsOf) self (dictItems d.map) source) := by
  cases source with
  | none => exact ⟨d.map,rfl,h,Alike.refl keys _ _⟩
  | some source =>
    cases source with
    | pairs pairs => exact meets_storePairs depth pairs h
    | dict other =>
      rw [updateFrom,meaningFrom]
      split
      case isTrue => exact ⟨d.map,rfl,h,Alike.refl keys _ _⟩
      case isFalse =>
        rw [items_at]
        have hvalued : ∀ e∈(dicts[other]?.map fun d => dictItems d.map).getD [],e.2≠none := by
          cases hother : dicts[other]? with
          | none => exact fun e he => by cases he
          | some d' => exact value_ne_none (hall d' (mem_of_getElem? hother))
        obtain ⟨map',hstore,hgood,halike⟩ := meets_storeItems depth _ h hvalued
        rw [hstore]
        exact ⟨map',rfl,hgood,halike⟩

/-- A dict is updated. -/
theorem meets_update (hall : ∀ d∈dicts,Good keys d) (h : Good keys d) (depth self : ℕ)
    (source : Option (Source κ ν)) (kwargs : List (κ×ν)) :
    Meets keys d.type (dictUpdate keys (depth+2) dicts self d.map source kwargs)
      (meaningUpdate keys (dicts.map contentsOf) self (dictItems d.map) source kwargs) := by
  obtain ⟨map',hfrom,hgood,halike⟩ := meets_updateFrom hall h depth self source
  rw [dictUpdate,hfrom,meaningUpdate]
  cases hmeaning : meaningFrom keys (dicts.map contentsOf) self (dictItems d.map) source with
  | mk items e =>
    rw [hmeaning] at halike
    cases e with
    | some e => exact ⟨map',rfl,hgood,halike⟩
    | none =>
      have hvalued : ∀ e∈kwargs.map fun p => (p.1,some p.2),e.2≠none := by
        intro e he
        obtain ⟨p,_,heq⟩ := mem_map.mp he
        rw [←heq]
        exact fun hnone => nomatch hnone
      obtain ⟨map'',hstore,hgood',halike'⟩ := meets_storeItems depth _ hgood hvalued
      simp only [Outcome.andThen,hstore]
      exact ⟨map'',rfl,hgood',Alike.trans halike' (alike_storeAll _ halike)⟩

theorem good_new (type : DictType) :
    Good keys ⟨type,(newMap type : MpMap κ ν)⟩∧dictItems (newMap type : MpMap κ ν)=[] := by
  cases type with
  | dict =>
    refine ⟨.dict (represents_init 0) fun x v hholds => ?_,rfl⟩
    exact absurd hholds (holds_null rfl x v)
  | ordereddict =>
    have hlays : Lays keys (newMap .ordereddict : MpMap κ ν) [] [] :=
      ⟨rfl,rfl,rfl,rfl,(fun e he => nomatch he),(fun _ e he => nomatch he),List.Pairwise.nil⟩
    exact ⟨.ordereddict hlays (fun e he => nomatch he) (fun e he => nomatch he),rfl⟩

/-! ## Operations -/

/-- An operation does what is meant by it, and the dicts stay good. -/
def Simulates (keys : Keys κ) (outcome : Outcome (List (MpObjDict κ ν)) (Reply κ ν))
    (expected : List (Contents κ ν)×Reply κ ν) : Prop :=
  ∃ dicts',outcome=.done dicts' expected.2∧(∀ d∈dicts',Good keys d)∧
    List.Forall₂ (Like keys) (dicts'.map contentsOf) expected.1

/-- What is in dicts is like itself. -/
theorem like_refl (view : List (Contents κ ν)) : List.Forall₂ (Like keys) view view :=
  List.forall₂_same.mpr fun _ _ => ⟨rfl,Alike.refl keys _ _⟩

/-- What is in dicts is alike when something that is alike is put at one place. -/
theorem like_set {c c' : Contents κ ν} (h : Like keys c c') (view : List (Contents κ ν)) :
    ∀ self : ℕ,List.Forall₂ (Like keys) (view.set self c) (view.set self c') := by
  induction view with
  | nil => exact fun _ => .nil
  | cons d view ih =>
    intro self
    cases self with
    | zero => exact .cons h (like_refl view)
    | succ self => exact .cons ⟨rfl,Alike.refl keys _ _⟩ (ih self)

/-- A method of one dict does what is meant by it to all. -/
theorem simulates_onDict (hall : ∀ d∈dicts,Good keys d) {self : ℕ}
    {method : MpMap κ ν→Outcome (MpMap κ ν) (Reply κ ν)}
    {meant : List (κ×Option ν)→List (κ×Option ν)×Reply κ ν}
    (hmeets : ∀ d,dicts[self]?=some d →
      Meets keys d.type (method d.map) (meant (dictItems d.map))) :
    Simulates keys (onDict dicts self method) (onContents (dicts.map contentsOf) self meant) := by
  rw [onDict,onContents,List.getElem?_map]
  cases hself : dicts[self]? with
  | none => exact ⟨dicts,rfl,hall,like_refl _⟩
  | some d =>
    obtain ⟨map',hmethod,hgood,halike⟩ := hmeets d hself
    simp only [hmethod,map_some]
    refine ⟨dicts.set self ⟨d.type,map'⟩,rfl,fun d' hd' => ?_,?_⟩
    · cases mem_or_eq_of_mem_set hd' with
      | inl hmem => exact hall d' hmem
      | inr heq =>
        rw [heq]
        exact hgood
    · have hlike : Like keys (contentsOf ⟨d.type,map'⟩)
          ⟨d.type,(meant (dictItems d.map)).1⟩ := ⟨rfl,halike⟩
      rw [map_set]
      exact like_set hlike _ self

theorem Meets.andThen {β : Type} {outcome : Outcome (MpMap κ ν) α}
    {expected : List (κ×Option ν)×α} (h : Meets keys type outcome expected) (f : α→β) :
    Meets keys type (outcome.andThen fun map a => .done map (f a)) (expected.1,f expected.2) := by
  obtain ⟨map',houtcome,hgood⟩ := h
  exact ⟨map',by rw [houtcome]; rfl,hgood⟩

/-- A new dict is added to the others. -/
theorem simulates_append (hall : ∀ d∈dicts,Good keys d) (hgood : Good keys d)
    {c : Contents κ ν} (hlike : Like keys (contentsOf d) c) (reply : Reply κ ν) :
    Simulates keys (.done (dicts++[d]) reply) (dicts.map contentsOf++[c],reply) := by
  refine ⟨_,rfl,fun d' hd' => ?_,?_⟩
  · cases mem_append.mp hd' with
    | inl hmem => exact hall d' hmem
    | inr hnew =>
      rw [mem_singleton.mp hnew]
      exact hgood
  · rw [map_append]
    exact rel_append (like_refl _) (.cons hlike .nil)

/-- A dict is made. -/
theorem simulates_makeNew (hall : ∀ d∈dicts,Good keys d) (depth : ℕ) (type : DictType)
    (source : Option (Source κ ν)) (kwargs : List (κ×ν)) :
    Simulates keys (dictMakeNew keys (depth+2) dicts type source kwargs)
      (meaningNew keys (dicts.map contentsOf) type source kwargs) := by
  obtain ⟨hgood,hitems⟩ := @good_new _ ν _ keys type
  obtain ⟨map',hupdate,hgood',halike⟩ :=
    meets_update hall hgood depth dicts.length source kwargs
  rw [hitems] at hupdate halike
  rw [dictMakeNew,hupdate,meaningNew,length_map]
  cases hmeaning : meaningUpdate keys (dicts.map contentsOf) dicts.length [] source kwargs with
  | mk items e =>
    rw [hmeaning] at halike
    cases e with
    | some e => exact ⟨dicts,rfl,hall,like_refl _⟩
    | none =>
      have hlike : Like keys (contentsOf ⟨type,map'⟩) ⟨type,items⟩ := ⟨rfl,halike⟩
      exact simulates_append hall hgood' hlike _

theorem simulates_copy (hall : ∀ d∈dicts,Good keys d) (self : ℕ) :
    Simulates keys (dictCopy dicts self) (meaningCopy (dicts.map contentsOf) self) := by
  rw [dictCopy,meaningCopy,List.getElem?_map,length_map]
  cases hself : dicts[self]? with
  | none => exact ⟨dicts,rfl,hall,like_refl _⟩
  | some d =>
    exact simulates_append hall (hall d (mem_of_getElem? hself)) ⟨rfl,Alike.refl keys _ _⟩ _

section

variable (hall : ∀ d∈dicts,Good keys d) (depth : ℕ) (constNone : ν) (op : DictOp κ ν)
include hall depth constNone

/-- An operation that is sound does what is meant by it, and the dicts stay good. -/
theorem simulates_step (hsound : Sound dicts op) :
    ∃ outcome,op.step keys (depth+2) constNone dicts=returned outcome∧
      Simulates keys outcome (meaning keys constNone (dicts.map contentsOf) op) := by
  have hgood : ∀ {self : ℕ} {d},dicts[self]?=some d → Good keys d :=
    fun hself => hall _ (mem_of_getElem? hself)
  cases op with
  | makeNew type source kwargs =>
    exact ⟨_,rfl,simulates_makeNew hall depth type source kwargs⟩
  | store self k v =>
    refine ⟨_,rfl,simulates_onDict hall fun d hself => ?_⟩
    exact (meets_storeValue (hgood hself) depth k v).andThen fun _ => Reply.nothing
  | delete self k =>
    refine ⟨_,rfl,simulates_onDict hall fun d hself => ?_⟩
    exact (meets_remove (hgood hself) depth constNone k none).andThen Reply.ofDone
  | get self k default =>
    refine ⟨_,rfl,simulates_onDict hall fun d hself => ?_⟩
    exact (meets_get (hgood hself) depth constNone k default).andThen Reply.ofValue
  | pop self k default =>
    refine ⟨_,rfl,simulates_onDict hall fun d hself => ?_⟩
    exact (meets_remove (hgood hself) depth constNone k default).andThen Reply.ofValue
  | popitem self =>
    refine ⟨_,rfl,simulates_onDict hall fun d hself => ?_⟩
    exact meets_popitem (hgood hself) (hsound d hself)
  | setdefault self k default =>
    refine ⟨_,rfl,simulates_onDict hall fun d hself => ?_⟩
    exact meets_setdefault (hgood hself) depth constNone k default
  | update self source kwargs =>
    refine ⟨_,rfl,simulates_onDict hall fun d hself => ?_⟩
    exact (meets_update hall (hgood hself) depth self source kwargs).andThen Reply.ofRaised
  | copy self => exact ⟨_,rfl,simulates_copy hall self⟩
  | clear self =>
    refine ⟨_,rfl,simulates_onDict hall fun d hself => ?_⟩
    exact meets_clear (hgood hself)

theorem faithful_of_sound (hsound : Sound dicts op) :
    Faithful keys (depth+2) constNone dicts op := by
  obtain ⟨outcome,hstep,dicts',houtcome,hgood,hlike⟩ :=
    simulates_step hall depth constNone op hsound
  refine ⟨dicts',_,?_,fun d hd => behaves_of_good (hgood d hd) depth,rfl,hlike⟩
  rw [hstep,houtcome]
  rfl

/-- An operation that is faithful is sound. -/
theorem sound_of_faithful (hfaithful : Faithful keys (depth+2) constNone dicts op) :
    Sound dicts op := by
  cases op with
  | popitem self =>
    intro d hself htype
    obtain ⟨dicts',reply,hstep,hbehaves,_⟩ := hfaithful
    have hresult : (DictOp.popitem self).step keys (depth+2) constNone dicts=
        .ok (dicts.set self ⟨d.type,(dictPopitem d.map).1⟩,(dictPopitem d.map).2) := by
      simp only [DictOp.step,onDict,hself]
      rfl
    rw [hresult] at hstep
    cases hstep
    have hlt : self < dicts.length := (List.getElem?_eq_some_iff.mp hself).1
    have hpopped := hbehaves _ (mem_set hlt _)
    cases Nat.lt_or_ge 1 d.map.used with
    | inr hle => exact hle
    | inl hmany =>
      cases hall d (mem_of_getElem? hself) with
      | dict _ _ => cases htype
      | ordereddict hlays _ _ => exact absurd hpopped (not_behaves_popitem hlays hmany (depth+1))
  | makeNew type source kwargs => exact trivial
  | store self k v => exact trivial
  | delete self k => exact trivial
  | get self k default => exact trivial
  | pop self k default => exact trivial
  | setdefault self k default => exact trivial
  | update self source kwargs => exact trivial
  | copy self => exact trivial
  | clear self => exact trivial

theorem good_of_step (hsound : Sound dicts op) {dicts' : List (MpObjDict κ ν)}
    {reply : Reply κ ν} (hstep : op.step keys (depth+2) constNone dicts=.ok (dicts',reply)) :
    ∀ d∈dicts',Good keys d := by
  obtain ⟨outcome,hreturned,dicts'',houtcome,hgood,_⟩ :=
    simulates_step hall depth constNone op hsound
  rw [hreturned,houtcome] at hstep
  cases hstep
  exact hgood

end

/-- The OrderedDict with two items of which one was popped. -/
def popped : MpObjDict ℕ ℕ :=
  ⟨.ordereddict,⟨false,true,1,4,[⟨.deleted,none⟩,⟨.full 2,some 20⟩,.null,.null]⟩⟩

end MicroPython.DictFaithful
