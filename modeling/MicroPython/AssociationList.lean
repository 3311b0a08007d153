import Mathlib.Data.List.Basic

/-!
# Association lists

A list of keys with values, in which a new key goes to the end and a key that is there
keeps its place. Keys are compared by a relation that is symmetric and transitive.
-/

namespace MicroPython.AssociationList

open List

variable {κ ν : Type} (same : κ→κ→Bool)

/-- The value of a key. -/
def get (entries : List (κ×ν)) (k : κ) : Option ν :=
  match entries with
  | [] => none
  | e::es => if same e.1 k then some e.2 else get es k

/-- A value is stored for a key. -/
def store (entries : List (κ×ν)) (k : κ) (v : ν) : List (κ×ν) :=
  match entries with
  | [] => [(k,v)]
  | e::es => if same e.1 k then (e.1,v)::es else e::store es k v

/-- A key is taken out. -/
def erase (entries : List (κ×ν)) (k : κ) : List (κ×ν) :=
  match entries with
  | [] => []
  | e::es => if same e.1 k then es else e::erase es k

/-- No two keys are the same. -/
def Distinct (entries : List (κ×ν)) : Prop :=
  entries.Pairwise fun e e' => same e.1 e'.1=false

/-- How keys are compared. -/
structure Comparison : Prop where
  /-- In both ways alike. -/
  symm : ∀ {a b},same a b=true → same b a=true
  /-- With all keys that are the same alike. -/
  trans : ∀ {a b c},same a b=true → same b c=true → same a c=true

variable {same}

/-- Keys that are the same compare in the same way. -/
theorem Comparison.congr (laws : Comparison same) {a b : κ} (h : same a b=true) (x : κ) :
    same a x=same b x := by
  cases hx : same b x with
  | true => exact laws.trans h hx
  | false =>
    cases hx' : same a x with
    | false => rfl
    | true =>
      rw [laws.trans (laws.symm h) hx'] at hx
      cases hx

/-- Two keys compare in both ways alike. -/
theorem Comparison.comm (laws : Comparison same) (a b : κ) : same a b=same b a := by
  cases h : same b a with
  | true => exact laws.symm h
  | false =>
    cases h' : same a b with
    | false => rfl
    | true =>
      rw [laws.symm h'] at h
      cases h

variable {e : κ×ν} {k : κ} {entries : List (κ×ν)} {v : ν}

/-- The value of the first key. -/
theorem get_cons_same (h : same e.1 k=true) (es : List (κ×ν)) :
    get same (e::es) k=some e.2 := if_pos h

/-- The value of a key that is not the first. -/
theorem get_cons_other (h : same e.1 k=false) (es : List (κ×ν)) :
    get same (e::es) k=get same es k := if_neg (Bool.eq_false_iff.mp h)

/-- A key that has no value is not there. -/
theorem get_eq_none_iff : get same entries k=none↔∀ e∈entries,same e.1 k=false := by
  induction entries with
  | nil => exact iff_of_true rfl fun _ hnil => nomatch hnil
  | cons d ds ih =>
    rw [forall_mem_cons]
    cases hd : same d.1 k with
    | true =>
      rw [get_cons_same hd]
      exact iff_of_false (fun h => nomatch h) fun h => nomatch h.1
    | false =>
      rw [get_cons_other hd,ih]
      exact (and_iff_right rfl).symm

/-- The value of a key is that of an entry. -/
theorem exists_of_get (h : get same entries k=some v) : ∃ e∈entries,same e.1 k=true∧e.2=v := by
  induction entries with
  | nil => cases h
  | cons d ds ih =>
    cases hd : same d.1 k with
    | true =>
      rw [get_cons_same hd] at h
      exact ⟨d,mem_cons_self,hd,Option.some.inj h⟩
    | false =>
      rw [get_cons_other hd] at h
      obtain ⟨e,he,hsame⟩ := ih h
      exact ⟨e,mem_cons_of_mem d he,hsame⟩

/-- The entries of distinct keys have the values of their keys. -/
theorem get_of_mem (laws : Comparison same)
    (h : Distinct same entries) : ∀ e∈entries,∀ k,same e.1 k=true →
      get same entries k=some e.2 := by
  induction entries with
  | nil => exact fun _ hnil => nomatch hnil
  | cons d ds ih =>
    intro e he k hk
    have hd := pairwise_cons.mp h
    cases mem_cons.mp he with
    | inl heq =>
      rw [←heq]
      exact get_cons_same hk ds
    | inr hmem =>
      have hfalse : same d.1 k=false := by
        rw [laws.comm d.1 k,←laws.congr hk d.1,laws.comm e.1 d.1]
        exact hd.1 e hmem
      rw [get_cons_other hfalse]
      exact ih hd.2 e hmem k hk

/-- The keys that are there after a value was stored. -/
theorem key_of_mem_store :
    ∀ e∈store same entries k v,e.1=k∧get same entries k=none∨∃ d∈entries,d.1=e.1 := by
  induction entries with
  | nil =>
    intro e he
    rw [mem_singleton.mp he]
    exact .inl ⟨rfl,rfl⟩
  | cons d ds ih =>
    intro e he
    rw [store] at he
    split at he
    case isTrue h =>
      cases mem_cons.mp he with
      | inl heq => exact .inr ⟨d,mem_cons_self,by rw [heq]⟩
      | inr hmem => exact .inr ⟨e,mem_cons_of_mem d hmem,rfl⟩
    case isFalse h =>
      cases mem_cons.mp he with
      | inl heq => exact .inr ⟨d,mem_cons_self,by rw [heq]⟩
      | inr hmem =>
        cases ih e hmem with
        | inl hnew =>
          rw [get_cons_other (Bool.eq_false_iff.mpr h)]
          exact .inl hnew
        | inr hold =>
          obtain ⟨d',hd',heq⟩ := hold
          exact .inr ⟨d',mem_cons_of_mem d hd',heq⟩

/-- Distinct keys stay distinct when a value is stored. -/
theorem distinct_store (h : Distinct same entries) (k : κ) (v : ν) :
    Distinct same (store same entries k v) := by
  induction entries with
  | nil => exact pairwise_singleton _ _
  | cons d ds ih =>
    have hd := pairwise_cons.mp h
    rw [store]
    split
    case isTrue hk => exact pairwise_cons.mpr ⟨fun e he => hd.1 e he,hd.2⟩
    case isFalse hk =>
      refine pairwise_cons.mpr ⟨fun e he => ?_,ih hd.2⟩
      cases key_of_mem_store e he with
      | inl hnew =>
        rw [hnew.1]
        exact Bool.eq_false_iff.mpr hk
      | inr hold =>
        obtain ⟨d',hd',heq⟩ := hold
        rw [←heq]
        exact hd.1 d' hd'

/-- A key that is not there is put at the end. -/
theorem store_of_none (h : get same entries k=none) (v : ν) :
    store same entries k v=entries++[(k,v)] := by
  rw [get_eq_none_iff] at h
  induction entries with
  | nil => rfl
  | cons d ds ih =>
    rw [store,if_neg (Bool.eq_false_iff.mp (h d mem_cons_self)),
      ih fun e he => h e (mem_cons_of_mem d he)]
    rfl

/-- A key that is not there is not taken out. -/
theorem erase_of_none (h : get same entries k=none) : erase same entries k=entries := by
  rw [get_eq_none_iff] at h
  induction entries with
  | nil => rfl
  | cons d ds ih =>
    rw [erase,if_neg (Bool.eq_false_iff.mp (h d mem_cons_self)),
      ih fun e he => h e (mem_cons_of_mem d he)]

/-- Predicates that agree on a list find the same place. -/
theorem findIdx?_congr {α : Type} {p q : α→Bool} {l : List α} (h : ∀ e∈l,p e=q e) :
    l.findIdx? p=l.findIdx? q := by
  induction l with
  | nil => rfl
  | cons d ds ih =>
    rw [List.findIdx?_cons,List.findIdx?_cons,h d mem_cons_self,
      ih fun e he => h e (mem_cons_of_mem d he)]

/-- A key that has no value has no place. -/
theorem findIdx?_eq_none : entries.findIdx? (fun e => same e.1 k)=none↔get same entries k=none :=
  List.findIdx?_eq_none_iff.trans get_eq_none_iff.symm

/-- The place of a key. -/
theorem get_of_findIdx? {pos : ℕ} (h : entries.findIdx? (fun e => same e.1 k)=some pos) (v : ν) :
    (∃ e,entries[pos]?=some e∧same e.1 k=true∧get same entries k=some e.2)∧
      store same entries k v=entries.modify pos (fun e => (e.1,v))∧
      erase same entries k=entries.eraseIdx pos := by
  induction entries generalizing pos with
  | nil => cases h
  | cons d ds ih =>
    rw [List.findIdx?_cons] at h
    split at h
    case isTrue hk =>
      cases h
      refine ⟨⟨d,rfl,hk,get_cons_same hk ds⟩,?_,?_⟩
      · rw [store,if_pos hk]
        rfl
      · rw [erase,if_pos hk]
        rfl
    case isFalse hk =>
      obtain ⟨i,hi,heq⟩ := Option.map_eq_some_iff.mp h
      rw [←heq]
      obtain ⟨⟨e,he,hsame,hget⟩,hstore,herase⟩ := ih hi
      refine ⟨⟨e,he,hsame,?_⟩,?_,?_⟩
      · rw [get_cons_other (Bool.eq_false_iff.mpr hk)]
        exact hget
      · rw [store,if_neg hk,hstore]
        rfl
      · rw [erase,if_neg hk,herase]
        rfl

/-- The place of a key among distinct keys. -/
theorem findIdx?_of_distinct (laws : Comparison same)
    (h : Distinct same entries) {pos : ℕ} (he : entries[pos]?=some e)
    (hk : same e.1 k=true) : entries.findIdx? (fun e => same e.1 k)=some pos := by
  obtain ⟨hlt,hat⟩ := List.getElem?_eq_some_iff.mp he
  refine List.findIdx?_eq_some_iff_getElem.mpr ⟨hlt,by rw [hat]; exact hk,fun j hj => ?_⟩
  have hfalse := pairwise_iff_getElem.mp h j pos (Nat.lt_trans hj hlt) hlt hj
  rw [hat,laws.comm,laws.congr hk,laws.comm] at hfalse
  exact Bool.eq_false_iff.mp hfalse

/-- Nothing changes when the value that is there is stored. -/
theorem store_of_get (h : get same entries k=some v) : store same entries k v=entries := by
  induction entries with
  | nil => cases h
  | cons d ds ih =>
    rw [store]
    split
    case isTrue hk =>
      rw [get_cons_same hk] at h
      rw [←Option.some.inj h]
    case isFalse hk =>
      rw [get_cons_other (Bool.eq_false_iff.mpr hk)] at h
      rw [ih h]

/-- Only the value that was stored last is there. -/
theorem store_store (hself : same k k=true) (entries : List (κ×ν)) (v w : ν) :
    store same (store same entries k w) k v=store same entries k v := by
  induction entries with
  | nil => exact if_pos hself
  | cons d ds ih =>
    rw [store,store]
    split
    case isTrue hk => rw [store,if_pos hk]
    case isFalse hk => rw [store,if_neg hk,ih]

theorem findIdx?_concat (h : get same entries k=none) (hself : same k k=true) (v : ν) :
    (entries++[(k,v)]).findIdx? (fun e => same e.1 k)=some entries.length := by
  rw [List.findIdx?_append,findIdx?_eq_none.mpr h,List.findIdx?_singleton,if_pos hself]
  exact congrArg some (Nat.zero_add _)

/-- The value of a key after one was stored. -/
theorem get_store (laws : Comparison same) (entries : List (κ×ν)) (k : κ) (v : ν) (x : κ) :
    get same (store same entries k v) x=if same k x then some v else get same entries x := by
  induction entries with
  | nil =>
    rw [store]
    cases hx : same k x with
    | true =>
      rw [if_pos rfl]
      exact get_cons_same hx []
    | false =>
      rw [if_neg Bool.false_ne_true]
      exact get_cons_other hx []
  | cons d ds ih =>
    rw [store]
    split
    case isTrue hk =>
      rw [←laws.congr hk x,get,get]
      cases same d.1 x with
      | true => rfl
      | false => rfl
    case isFalse hk =>
      cases hx : same d.1 x with
      | false => rw [get_cons_other hx,get_cons_other hx,ih]
      | true =>
        have hother : same k x=false := by
          cases hkx : same k x with
          | false => rfl
          | true => exact absurd (laws.trans hx (laws.symm hkx)) hk
        rw [hother,if_neg Bool.false_ne_true,get_cons_same hx,get_cons_same hx]

/-- The value of a key after one was taken out. -/
theorem get_erase (laws : Comparison same) (h : Distinct same entries) (k x : κ) :
    get same (erase same entries k) x=if same k x then none else get same entries x := by
  induction entries with
  | nil => exact (ite_self none).symm
  | cons d ds ih =>
    have hd := pairwise_cons.mp h
    rw [erase]
    split
    case isTrue hk =>
      rw [←laws.congr hk x]
      cases hx : same d.1 x with
      | false => rw [if_neg Bool.false_ne_true,get_cons_other hx]
      | true =>
        rw [if_pos rfl,get_eq_none_iff]
        intro e he
        rw [laws.comm e.1 x,←laws.congr hx e.1]
        exact hd.1 e he
    case isFalse hk =>
      cases hx : same d.1 x with
      | false => rw [get_cons_other hx,get_cons_other hx,ih hd.2]
      | true =>
        have hother : same k x=false := by
          cases hkx : same k x with
          | false => rfl
          | true => exact absurd (laws.trans hx (laws.symm hkx)) hk
        rw [hother,if_neg Bool.false_ne_true,get_cons_same hx,get_cons_same hx]

end MicroPython.AssociationList
