import Mathlib.Data.List.Basic
import Mathlib.Logic.Function.Iterate

/-!
# Binary heaps with a moving hole

A list is read as a binary tree in level order. An item travels towards the
root, or the smaller children travel into a hole towards the leaves, and no
entry is swapped on the way. The comparison only has to be an order on what is
in the heap. Pushing and taking away the first entry keep the heap and the
entries in it.
-/

namespace MicroPython.BinaryHeap

open Nat List

variable {α : Type}

/-- The place above a place. The root is no place's child. -/
def parent (i : ℕ) : ℕ := (i-1)/2

/-- The place above is nearer to the root. -/
theorem parent_lt {i : ℕ} (h : 0 < i) : parent i < i := by
  rw [parent]
  omega

/-- The item travels from a hole towards `start`, as long as it belongs before what is
above the hole. -/
def siftDown (less : α→α→Bool) (item : α) (start : ℕ) (items : List α) (pos : ℕ) : List α :=
  if _h : start<pos then
    match items[parent pos]? with
    | none => items.set pos item
    | some above =>
      if less item above then siftDown less item start (items.set pos above) (parent pos)
      else items.set pos item
  else items.set pos item
termination_by pos
decreasing_by exact parent_lt (Nat.zero_lt_of_lt ‹_›)

/-- The smaller children travel into the hole until it is a leaf. -/
def bubble (less : α→α→Bool) (items : List α) (pos : ℕ) : List α×ℕ :=
  match _h : items[2*pos+1]? with
  | none => (items,pos)
  | some left =>
    match items[2*pos+2]? with
    | none => bubble less (items.set pos left) (2*pos+1)
    | some right =>
      if less left right then bubble less (items.set pos left) (2*pos+1)
      else bubble less (items.set pos right) (2*pos+2)
termination_by items.length-pos
decreasing_by
  all_goals
    have := (List.getElem?_eq_some_iff.mp ‹_›).1
    rw [List.length_set]
    omega

/-- The entry at a place sinks to where it belongs. -/
def siftUp (less : α→α→Bool) (items : List α) (pos : ℕ) : List α :=
  match items[pos]? with
  | none => items
  | some item =>
    let r := bubble less items pos
    siftDown less item pos r.1 r.2

/-- A new entry. -/
def push (less : α→α→Bool) (items : List α) (item : α) : List α :=
  siftDown less item 0 (items++[item]) items.length

/-- The heap without its first entry: the last one takes its place and sinks. -/
def removeFirst (less : α→α→Bool) (items : List α) : List α :=
  match items.getLast? with
  | none => []
  | some last => siftUp less (items.set 0 last).dropLast 0

/-! ## The entries -/

variable {less : α→α→Bool} {item above : α} {items : List α} {start pos : ℕ}

theorem set_set_perm (hpos : pos < items.length) (hne : parent pos≠pos)
    (habove : items[parent pos]?=some above) :
    ((items.set pos above).set (parent pos) item).Perm (items.set pos item) := by
  obtain ⟨hlt,hget⟩ := List.getElem?_eq_some_iff.mp habove
  have hswap := @List.set_set_perm α (items.set pos item) pos (parent pos)
    (by rwa [List.length_set]) (by rwa [List.length_set])
  rw [getElem_set_ne hne.symm,getElem_set_self,set_set,hget] at hswap
  exact hswap

/-- The travel towards the root keeps the entries. -/
theorem siftDown_perm (less : α→α→Bool) (item : α) (start : ℕ) (items : List α) (pos : ℕ)
    (hpos : pos < items.length) :
    (siftDown less item start items pos).Perm (items.set pos item) := by
  fun_induction siftDown less item start items pos with
  | case1 items pos h habove => exact List.Perm.refl _
  | case2 items pos h above habove hless ih =>
    have hup := parent_lt (zero_lt_of_lt h)
    have hrest := ih (by rw [List.length_set]; omega)
    exact hrest.trans (set_set_perm hpos (by omega) habove)
  | case3 items pos h above habove hless => exact List.Perm.refl _
  | case4 items pos h => exact List.Perm.refl _

/-- What `bubble` keeps of the entries and where its hole ends. -/
structure Bubbled (items : List α) (pos : ℕ) (r : List α×ℕ) : Prop where
  /-- There are as many places. -/
  length : r.1.length=items.length
  hole : r.2 < items.length
  /-- The hole has no child. -/
  leaf : items.length≤2*r.2+1
  /-- Whatever fills the hole, the entries are those of before. -/
  perm : ∀ item,(r.1.set r.2 item).Perm (items.set pos item)

variable {c : ℕ} {s : α→Prop}

/-- The hole after the first child has travelled into it. -/
theorem Bubbled.child {r : List α×ℕ} {child : α}
    (h : Bubbled (items.set pos child) c r) (hpos : pos < items.length)
    (hparent : parent c=pos) (hc : pos≠c) (hchild : items[c]?=some child) :
    Bubbled items pos r := by
  obtain ⟨hlt,hget⟩ := List.getElem?_eq_some_iff.mp hchild
  refine ⟨?_,?_,?_,fun item => (h.perm item).trans ?_⟩
  · rw [h.length,List.length_set]
  · rw [←List.length_set]
    exact h.hole
  · rw [←List.length_set]
    exact h.leaf
  · have hswap := @List.set_set_perm α (items.set pos item) pos c
      (by rwa [List.length_set]) (by rwa [List.length_set])
    rw [getElem_set_ne hc,getElem_set_self,set_set,hget] at hswap
    exact hswap

/-- The place above the children of a place. -/
theorem parent_left (pos : ℕ) : parent (2*pos+1)=pos := by
  rw [parent]
  omega

/-- The place above the children of a place. -/
theorem parent_right (pos : ℕ) : parent (2*pos+2)=pos := by
  rw [parent]
  omega

/-- The travel of a hole keeps the entries. -/
theorem bubble_bubbled (less : α→α→Bool) (items : List α) (pos : ℕ)
    (hpos : pos < items.length) : Bubbled items pos (bubble less items pos) := by
  fun_induction bubble less items pos with
  | case1 items pos hnone =>
    exact ⟨rfl,hpos,List.getElem?_eq_none_iff.mp hnone,fun item => List.Perm.refl _⟩
  | case2 items pos left hleft hright ih =>
    have hlt := (List.getElem?_eq_some_iff.mp hleft).1
    have hrest := ih (by rwa [List.length_set])
    exact hrest.child hpos (parent_left pos) (by omega) hleft
  | case3 items pos left hleft right hright hless ih =>
    have hlt := (List.getElem?_eq_some_iff.mp hleft).1
    have hrest := ih (by rwa [List.length_set])
    exact hrest.child hpos (parent_left pos) (by omega) hleft
  | case4 items pos left hleft right hright hless ih =>
    have hlt := (List.getElem?_eq_some_iff.mp hright).1
    have hrest := ih (by rwa [List.length_set])
    exact hrest.child hpos (parent_right pos) (by omega) hright

/-- Sinking keeps the entries. -/
theorem siftUp_perm (less : α→α→Bool) (items : List α) (pos : ℕ) :
    (siftUp less items pos).Perm items := by
  rw [siftUp]
  split
  case h_1 hnone => exact List.Perm.refl _
  case h_2 item hitem =>
    obtain ⟨hpos,hget⟩ := List.getElem?_eq_some_iff.mp hitem
    have hbubble := bubble_bubbled less items pos hpos
    have hdown := siftDown_perm less item pos _ _ (lt_of_lt_of_eq hbubble.hole hbubble.length.symm)
    have hback : items.set pos item=items := by
      rw [←hget,set_getElem_self]
    exact hdown.trans ((hbubble.perm item).trans (List.Perm.of_eq hback))

/-- A push adds its entry. -/
theorem push_perm (less : α→α→Bool) (items : List α) (item : α) :
    (push less items item).Perm (items++[item]) := by
  have hlen : items.length<(items++[item]).length := by
    rw [length_append,length_singleton]
    omega
  have hdown := siftDown_perm less item 0 _ _ hlen
  have hset : (items++[item]).set items.length item=items++[item] := by
    rw [set_append_right _ _ (Nat.le_refl _),Nat.sub_self,set_cons_zero]
  rw [hset] at hdown
  exact hdown

/-- The last entry in the place of the first, and one place fewer. -/
theorem set_dropLast_perm (first last : α) (rest : List α) (h : (first::rest).getLast?=some last) :
    (((first::rest).set 0 last).dropLast).Perm rest := by
  rw [set_cons_zero]
  cases rest with
  | nil => exact List.Perm.refl _
  | cons second rest =>
    have hlast : (second::rest).getLast?=some last := by
      rwa [List.getLast?_cons_cons] at h
    have hsplit := dropLast_append_getLast? last hlast
    rw [dropLast_cons₂]
    conv_rhs => rw [←hsplit]
    exact (perm_append_singleton last _).symm

/-- Taking the first entry away leaves the others. -/
theorem removeFirst_perm (less : α→α→Bool) (first : α) (rest : List α) :
    (removeFirst less (first::rest)).Perm rest := by
  rw [removeFirst]
  split
  case h_1 hnone => cases List.getLast?_eq_none_iff.mp hnone
  case h_2 last hlast =>
    exact (siftUp_perm less _ 0).trans (set_dropLast_perm first last rest hlast)

/-! ## The order -/

/-- The comparison orders what it is asked about: no two entries are before each other, and
an entry that is not before a second one, which is not before a third, is not before the
third. -/
structure Orders (less : α→α→Bool) (s : α→Prop) : Prop where
  /-- No two entries are before each other. -/
  asymm : ∀ a b,s a → s b → less a b=true → less b a=false
  /-- Not being before is transitive. -/
  trans : ∀ a b c,s a → s b → s c → less a b=false → less b c=false → less a c=false

/-- No entry is before itself. -/
theorem Orders.irrefl (horder : Orders less s) {a : α} (ha : s a) : less a a=false := by
  cases hless : less a a with
  | false => rfl
  | true =>
    have hback := horder.asymm a a ha ha hless
    rwa [hless] at hback

/-- A copy of an entry brings nothing new. -/
theorem mem_of_mem_set {child x : α} (hchild : items[c]?=some child)
    (hx : x∈items.set pos child) : x∈items := by
  cases mem_or_eq_of_mem_set hx with
  | inl hx => exact hx
  | inr hx =>
    rw [hx]
    exact mem_of_getElem? hchild

/-- What is in a place that has been filled. -/
theorem eq_of_set_self {x a : α} (h : (items.set pos x)[pos]?=some a) : x=a := by
  rw [List.getElem?_set,if_pos rfl] at h
  split at h
  · exact Option.some.inj h
  · cases h

/-- No entry is before the one above it. -/
def IsHeap (less : α→α→Bool) (items : List α) : Prop :=
  ∀ i a b,0 < i → items[i]?=some a → items[parent i]?=some b → less a b=false

/-- No entry is before the one above it, where the hole is neither of the two, and no
child of the hole is before what is above the hole. -/
structure Holed (less : α→α→Bool) (items : List α) (hole : ℕ) : Prop where
  apart : ∀ i a b,0 < i → i≠hole → parent i≠hole → items[i]?=some a →
    items[parent i]?=some b → less a b=false
  across : 0<hole → ∀ i a b,0 < i → parent i=hole → items[i]?=some a →
    items[parent hole]?=some b → less a b=false

/-- No child of a place is before an item. -/
def Above (less : α→α→Bool) (item : α) (items : List α) (hole : ℕ) : Prop :=
  ∀ i a,0 < i → parent i=hole → items[i]?=some a → less a item=false

/-! ## Heaps below a place -/

/-- A place is the other one or in the tree below it. -/
def Under (start pos : ℕ) : Prop := ∃ n,parent^[n] pos=start

/-- A place is under itself. -/
theorem Under.refl (start : ℕ) : Under start start := ⟨0,rfl⟩

theorem Under.child (h : Under start (parent c)) : Under start c := by
  obtain ⟨n,hn⟩ := h
  exact ⟨n+1,hn⟩

/-- No place above is further from the root. -/
theorem parent_le (i : ℕ) : parent i ≤ i := by
  rw [parent]
  omega

theorem Under.le (h : Under start pos) : start≤pos := by
  obtain ⟨n,rfl⟩ := h
  induction n with
  | zero => exact Nat.le_refl _
  | succ n ih =>
    rw [Function.iterate_succ_apply']
    exact Nat.le_trans (parent_le _) ih

theorem Under.up (h : Under start pos) (hpos : start < pos) : Under start (parent pos) := by
  obtain ⟨n,hn⟩ := h
  cases n with
  | zero => exact absurd hn (Nat.ne_of_gt hpos)
  | succ n => exact ⟨n,hn⟩

theorem under_root (pos : ℕ) : Under 0 pos := by
  induction pos using Nat.strongRecOn with
  | ind pos ih =>
    cases Nat.eq_zero_or_pos pos with
    | inl hpos => exact hpos ▸ Under.refl 0
    | inr hpos => exact (ih _ (parent_lt hpos)).child

/-- No entry is before the one above it, from a place on. -/
def HeapFrom (less : α→α→Bool) (start : ℕ) (items : List α) : Prop :=
  ∀ i a b,0 < i → start≤parent i → items[i]?=some a → items[parent i]?=some b → less a b=false

/-- From a place on no entry is before the one above it, where the hole is neither of the two,
and no child of the hole is before what is above the hole. -/
structure HoledFrom (less : α→α→Bool) (start : ℕ) (items : List α) (hole : ℕ) : Prop where
  apart : ∀ i a b,0 < i → start≤parent i → i≠hole → parent i≠hole → items[i]?=some a →
    items[parent i]?=some b → less a b=false
  across : start < hole → ∀ i a b,0 < i → parent i=hole → items[i]?=some a →
    items[parent hole]?=some b → less a b=false

theorem isHeap_iff : IsHeap less items↔HeapFrom less 0 items :=
  ⟨fun h i a b hi _ => h i a b hi,fun h i a b hi => h i a b hi (zero_le _)⟩

/-- A hole in the whole list. -/
theorem Holed.fromRoot (h : Holed less items pos) : HoledFrom less 0 items pos :=
  ⟨fun i a b hi _ => h.apart i a b hi,h.across⟩

theorem HeapFrom.holed (h : HeapFrom less (start+1) items) : HoledFrom less start items start :=
  ⟨fun i a b hi hstart _ hne => h i a b hi (by omega),fun hstart => absurd hstart (by omega)⟩

/-- The entry above has come down into the hole. -/
theorem HoledFrom.down (horder : Orders less s) (hs : ∀ x∈items,s x)
    (h : HoledFrom less start items pos) (hunder : Under start pos) (hpos : start < pos)
    (habove : items[parent pos]?=some above) :
    HoledFrom less start (items.set pos above) (parent pos) := by
  have hup := parent_lt (zero_lt_of_lt hpos)
  constructor
  · intro i a b hi hstart hne hpne ha hb
    have hipos : i≠pos := fun heq => hpne (congrArg parent heq)
    rw [List.getElem?_set_ne hipos.symm] at ha
    cases Decidable.em (parent i=pos) with
    | inl heq =>
      rw [heq] at hb
      cases eq_of_set_self hb
      exact h.across hpos i a _ hi heq ha habove
    | inr hne' =>
      rw [List.getElem?_set_ne (Ne.symm hne')] at hb
      exact h.apart i a b hi hstart hipos hne' ha hb
  · intro hparent i a b hi hp ha hb
    have hpositive := zero_lt_of_lt hparent
    have hup' := parent_lt hpositive
    have hfar : parent (parent pos)≠pos := by omega
    rw [List.getElem?_set_ne hfar.symm] at hb
    have hgrand := h.apart (parent pos) above b hpositive
      ((hunder.up hpos).up hparent).le (by omega) hfar habove hb
    cases Decidable.em (i=pos) with
    | inl heq =>
      rw [heq] at ha
      cases eq_of_set_self ha
      exact hgrand
    | inr hne =>
      rw [List.getElem?_set_ne (Ne.symm hne)] at ha
      have habove' := habove
      rw [←hp] at habove'
      have hsibling := h.apart i a above hi (by omega) hne (by omega) ha habove'
      exact horder.trans a above b (hs a (mem_of_getElem? ha))
        (hs above (mem_of_getElem? habove)) (hs b (mem_of_getElem? hb)) hsibling
        hgrand

/-- The item is before what came down, so its new children are not before it. -/
theorem Above.down (horder : Orders less s) (hs : ∀ x∈items,s x)
    (hitem : s item) (h : HoledFrom less start items pos) (hunder : Under start pos)
    (hpos : start < pos) (habove : items[parent pos]?=some above)
    (hless : less item above=true) : Above less item (items.set pos above) (parent pos) := by
  intro i a hi hp ha
  have hmem := hs above (mem_of_getElem? habove)
  have hback := horder.asymm item above hitem hmem hless
  cases Decidable.em (i=pos) with
  | inl heq =>
    rw [heq] at ha
    cases eq_of_set_self ha
    exact hback
  | inr hne =>
    rw [List.getElem?_set_ne (Ne.symm hne)] at ha
    have hup := parent_lt (zero_lt_of_lt hpos)
    have hstart := (hunder.up hpos).le
    rw [←hp] at habove
    have hsibling := h.apart i a above hi (by omega) hne (by omega) ha habove
    exact horder.trans a above item (hs a (mem_of_getElem? ha)) hmem hitem hsibling hback

/-- The item fills the hole where it belongs. -/
theorem HoledFrom.fill (h : HoledFrom less start items pos) (hbelow : Above less item items pos)
    (hstop : ∀ above,start < pos → items[parent pos]?=some above → less item above=false) :
    HeapFrom less start (items.set pos item) := by
  intro i a b hi hstart ha hb
  have hup := parent_lt hi
  cases Decidable.em (i=pos) with
  | inl heq =>
    rw [heq] at hi ha hb hup hstart
    rw [List.getElem?_set_ne (by omega)] at hb
    cases eq_of_set_self ha
    exact hstop b (Nat.lt_of_le_of_lt hstart hup) hb
  | inr hne =>
    rw [List.getElem?_set_ne (Ne.symm hne)] at ha
    cases Decidable.em (parent i=pos) with
    | inl heq =>
      rw [heq] at hb
      cases eq_of_set_self hb
      exact hbelow i a hi heq ha
    | inr hne' =>
      rw [List.getElem?_set_ne (Ne.symm hne')] at hb
      exact h.apart i a b hi hstart hne hne' ha hb

/-- The travel towards a place ends with a heap from there on. -/
theorem siftDown_heapFrom (horder : Orders less s) (start : ℕ) (items : List α)
    (pos : ℕ) (hs : ∀ x∈items,s x) (hitem : s item) (hunder : Under start pos)
    (h : HoledFrom less start items pos) (hbelow : Above less item items pos) :
    HeapFrom less start (siftDown less item start items pos) := by
  fun_induction siftDown less item start items pos with
  | case1 items pos hpos habove =>
    refine h.fill hbelow fun above _ hget => ?_
    rw [habove] at hget
    cases hget
  | case2 items pos hpos above habove hless ih =>
    exact ih (fun x hx => hs x (mem_of_mem_set habove hx)) (hunder.up hpos)
      (h.down horder hs hunder hpos habove)
      (Above.down horder hs hitem h hunder hpos habove hless)
  | case3 items pos hpos above habove hless =>
    refine h.fill hbelow fun above' _ hget => ?_
    rw [habove] at hget
    cases hget
    exact Bool.eq_false_iff.mpr hless
  | case4 items pos hpos => exact h.fill hbelow fun above hpos' _ => absurd hpos' hpos

theorem siftDown_isHeap (horder : Orders less s) (items : List α) (pos : ℕ)
    (hs : ∀ x∈items,s x) (hitem : s item) (h : Holed less items pos)
    (hbelow : Above less item items pos) : IsHeap less (siftDown less item 0 items pos) :=
  isHeap_iff.mpr (siftDown_heapFrom horder 0 items pos hs hitem (under_root pos) h.fromRoot hbelow)

/-- A child of a place is one of two. -/
theorem eq_or_eq_of_parent {i : ℕ} (hi : 0 < i) (h : parent i=pos) : i=2*pos+1∨i=2*pos+2 := by
  rw [parent] at h
  omega

/-- The child that no other child is before has come up into the hole. -/
theorem HoledFrom.up {child : α} (h : HoledFrom less start items pos)
    (hc : 0<c) (hparent : parent c=pos) (hunder : Under start pos) (hchild : items[c]?=some child)
    (hfirst : ∀ i a,0 < i → i≠c → parent i=pos → items[i]?=some a → less a child=false) :
    HoledFrom less start (items.set pos child) c := by
  have hup := parent_lt hc
  constructor
  · intro i a b hi hfrom hne hpne ha hb
    cases Decidable.em (parent i=pos) with
    | inl heq =>
      have hup' := parent_lt hi
      rw [List.getElem?_set_ne (by omega)] at ha
      rw [heq] at hb
      cases eq_of_set_self hb
      exact hfirst i a hi hne heq ha
    | inr hne' =>
      rw [List.getElem?_set_ne (Ne.symm hne')] at hb
      cases Decidable.em (i=pos) with
      | inl heq =>
        rw [heq] at hi hb ha hfrom
        cases eq_of_set_self ha
        exact h.across (Nat.lt_of_le_of_lt hfrom (parent_lt hi)) c _ b hc hparent hchild hb
      | inr hipos =>
        rw [List.getElem?_set_ne (Ne.symm hipos)] at ha
        exact h.apart i a b hi hfrom hipos hne' ha hb
  · intro _ i a b hi hp ha hb
    have hup' := parent_lt hi
    rw [List.getElem?_set_ne (by omega)] at ha
    rw [hparent] at hb
    cases eq_of_set_self hb
    rw [←hp] at hchild
    exact h.apart i a _ hi (by omega) (by omega) (by omega) ha hchild

/-- The travel of a hole keeps the order around it, and the hole stays below. -/
theorem bubble_holedFrom (horder : Orders less s) (start : ℕ) (items : List α)
    (pos : ℕ) (hs : ∀ x∈items,s x) (hunder : Under start pos) (h : HoledFrom less start items pos) :
    HoledFrom less start (bubble less items pos).1 (bubble less items pos).2∧
      Under start (bubble less items pos).2 := by
  have hset {items : List α} {pos c : ℕ} {child : α} (hs : ∀ x∈items,s x)
      (hchild : items[c]?=some child) : ∀ x∈items.set pos child,s x :=
    fun x hx => hs x (mem_of_mem_set hchild hx)
  have hleftUnder {pos : ℕ} (h : Under start pos) : Under start (2*pos+1) :=
    Under.child (by rwa [parent_left])
  have hrightUnder {pos : ℕ} (h : Under start pos) : Under start (2*pos+2) :=
    Under.child (by rwa [parent_right])
  fun_induction bubble less items pos with
  | case1 items pos hnone => exact ⟨h,hunder⟩
  | case2 items pos left hleft hright ih =>
    refine ih (hset hs hleft) (hleftUnder hunder)
      (h.up (succ_pos _) (parent_left pos) hunder hleft ?_)
    intro i a hi hne hp ha
    cases eq_or_eq_of_parent hi hp with
    | inl heq => exact absurd heq hne
    | inr heq =>
      rw [heq,hright] at ha
      cases ha
  | case3 items pos left hleft right hright hless ih =>
    refine ih (hset hs hleft) (hleftUnder hunder)
      (h.up (succ_pos _) (parent_left pos) hunder hleft ?_)
    intro i a hi hne hp ha
    cases eq_or_eq_of_parent hi hp with
    | inl heq => exact absurd heq hne
    | inr heq =>
      rw [heq,hright] at ha
      cases ha
      exact horder.asymm left right (hs left (mem_of_getElem? hleft))
        (hs right (mem_of_getElem? hright)) hless
  | case4 items pos left hleft right hright hless ih =>
    refine ih (hset hs hright) (hrightUnder hunder)
      (h.up (succ_pos _) (parent_right pos) hunder hright ?_)
    intro i a hi hne hp ha
    cases eq_or_eq_of_parent hi hp with
    | inl heq =>
      rw [heq,hleft] at ha
      cases ha
      exact Bool.eq_false_iff.mpr hless
    | inr heq => exact absurd heq hne

/-- The travel of a hole brings nothing new. -/
theorem mem_of_mem_bubble (items : List α) (pos : ℕ) :
    ∀ x∈(bubble less items pos).1,x∈items := by
  fun_induction bubble less items pos with
  | case1 items pos hnone => exact fun x hx => hx
  | case2 items pos left hleft hright ih => exact fun x hx => mem_of_mem_set hleft (ih x hx)
  | case3 items pos left hleft right hright hless ih =>
    exact fun x hx => mem_of_mem_set hleft (ih x hx)
  | case4 items pos left hleft right hright hless ih =>
    exact fun x hx => mem_of_mem_set hright (ih x hx)

/-- Sinking from a place makes a heap from there on, when there is only a hole at the place. -/
theorem siftUp_heapFrom (horder : Orders less s) (hs : ∀ x∈items,s x)
    (h : HoledFrom less start items start) : HeapFrom less start (siftUp less items start) := by
  rw [siftUp]
  split
  case h_1 hnone =>
    have hlength := List.getElem?_eq_none_iff.mp hnone
    intro i a b hi hstart ha
    have hlt := (List.getElem?_eq_some_iff.mp ha).1
    have hup := parent_lt hi
    omega
  case h_2 item hitem =>
    have hpos := (List.getElem?_eq_some_iff.mp hitem).1
    have hbubble := bubble_bubbled less items start hpos
    have hmem : s item := hs item (mem_of_getElem? hitem)
    obtain ⟨hholed,hunder⟩ := bubble_holedFrom horder start items start hs (.refl start) h
    refine siftDown_heapFrom horder _ _ _ (fun x hx => hs x (mem_of_mem_bubble _ _ x hx)) hmem
      hunder hholed fun i a hi hp ha => ?_
    have hlt := (List.getElem?_eq_some_iff.mp ha).1
    rw [hbubble.length] at hlt
    have hleaf := hbubble.leaf
    cases eq_or_eq_of_parent hi hp with
    | inl heq => omega
    | inr heq => omega

/-- Sinking from the root ends with a heap. -/
theorem siftUp_isHeap (horder : Orders less s) (hs : ∀ x∈items,s x)
    (h : Holed less items 0) : IsHeap less (siftUp less items 0) :=
  isHeap_iff.mpr (siftUp_heapFrom horder hs h.fromRoot)

/-- Places sink one after another, from the one before a place down to the root. -/
def heapifyFrom (less : α→α→Bool) : ℕ→List α→List α
  | 0,items => items
  | i+1,items => heapifyFrom less i (siftUp less items i)

/-- The entries stay. -/
theorem heapifyFrom_perm (less : α→α→Bool) (n : ℕ) (items : List α) :
    (heapifyFrom less n items).Perm items := by
  induction n generalizing items with
  | zero => exact .refl _
  | succ n ih => exact (ih _).trans (siftUp_perm less items n)

theorem heapifyFrom_isHeap (horder : Orders less s) (hs : ∀ x∈items,s x) {n : ℕ}
    (h : HeapFrom less n items) : IsHeap less (heapifyFrom less n items) := by
  induction n generalizing items with
  | zero => exact isHeap_iff.mpr h
  | succ n ih =>
    refine ih (fun x hx => hs x ?_) (siftUp_heapFrom horder hs h.holed)
    exact (siftUp_perm less items n).mem_iff.mp hx

/-- No place in the second half has a place below it. -/
theorem heapFrom_half (less : α→α→Bool) (items : List α) :
    HeapFrom less (items.length/2) items := by
  intro i a b hi hstart ha
  have hlt := (List.getElem?_eq_some_iff.mp ha).1
  rw [parent] at hstart
  omega

/-- A push keeps a heap. -/
theorem push_isHeap (horder : Orders less s) (hs : ∀ x∈items,s x)
    (hitem : s item) (h : IsHeap less items) : IsHeap less (push less items item) := by
  have hmem : ∀ x∈items++[item],s x := by
    intro x hx
    cases mem_append.mp hx with
    | inl hx => exact hs x hx
    | inr hx =>
      rw [mem_singleton.mp hx]
      exact hitem
  have hlast {i : ℕ} {a : α} (hne : i≠items.length) (ha : (items++[item])[i]?=some a) :
      items[i]?=some a := by
    have hlt := (List.getElem?_eq_some_iff.mp ha).1
    rw [length_append,length_singleton] at hlt
    rwa [List.getElem?_append_left (by omega)] at ha
  have hchild {i : ℕ} {a : α} (hi : 0 < i) (hp : parent i=items.length)
      (ha : (items++[item])[i]?=some a) : False := by
    have hlt := (List.getElem?_eq_some_iff.mp ha).1
    rw [length_append,length_singleton] at hlt
    have hup := parent_lt hi
    omega
  refine siftDown_isHeap horder _ _ hmem hitem ⟨?_,?_⟩ ?_
  · intro i a b hi hne hpne ha hb
    exact h i a b hi (hlast hne ha) (hlast hpne hb)
  · intro _ i a b hi hp ha
    exact absurd ha fun ha => hchild hi hp ha
  · intro i a hi hp ha
    exact absurd ha fun ha => hchild hi hp ha

/-- No entry of a heap is before the first. -/
theorem IsHeap.first (horder : Orders less s) (hs : ∀ x∈items,s x)
    (h : IsHeap less items) {first : α} (hfirst : items[0]?=some first) (i : ℕ) :
    ∀ a,items[i]?=some a → less a first=false := by
  induction i using Nat.strongRecOn with
  | ind i ih =>
    intro a ha
    cases Nat.eq_zero_or_pos i with
    | inl hi =>
      rw [hi,hfirst] at ha
      cases ha
      exact horder.irrefl (hs _ (mem_of_getElem? hfirst))
    | inr hi =>
      have hup := parent_lt hi
      have hlt := (List.getElem?_eq_some_iff.mp ha).1
      have hparent := List.getElem?_eq_getElem (Nat.lt_trans hup hlt)
      have habove := ih (parent i) hup _ hparent
      exact horder.trans a _ first (hs a (mem_of_getElem? ha))
        (hs _ (mem_of_getElem? hparent)) (hs first (mem_of_getElem? hfirst))
        (h i a _ hi ha hparent) habove

/-- Taking the first entry away keeps a heap. -/
theorem removeFirst_isHeap (horder : Orders less s) (hs : ∀ x∈items,s x)
    (h : IsHeap less items) : IsHeap less (removeFirst less items) := by
  rw [removeFirst]
  split
  case h_1 hnone =>
    intro i a b hi ha
    cases ha
  case h_2 last hlast =>
    have hmem := mem_of_getLast? hlast
    have hget {i : ℕ} {a : α} (hi : 0 < i) (ha : ((items.set 0 last).dropLast)[i]?=some a) :
        items[i]?=some a := by
      rw [dropLast_eq_take,List.getElem?_take] at ha
      split at ha
      · rwa [List.getElem?_set_ne (by omega)] at ha
      · cases ha
    refine siftUp_isHeap horder (fun x hx => ?_) ⟨?_,fun h0 => absurd h0 (Nat.lt_irrefl 0)⟩
    · cases mem_or_eq_of_mem_set (dropLast_subset _ hx) with
      | inl hx => exact hs x hx
      | inr hx =>
        rw [hx]
        exact hs last hmem
    · intro i a b hi _ hp ha hb
      exact h i a b hi (hget hi ha) (hget (Nat.pos_of_ne_zero hp) hb)

end MicroPython.BinaryHeap
