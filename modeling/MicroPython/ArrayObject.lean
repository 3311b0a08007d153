import Mathlib.Algebra.Group.Nat.Defs
import MicroPython.MemoryArea

/-!
# Arrays and bytearrays

An array has items and room for more of them. It is made from a buffer, a number
or an iterable, appended to, extended and assigned to by slices. What the allocator
does comes with each operation, and so does what an object is stored as, or that it
cannot be. A buffer lies elsewhere or in the array itself, as the array or a
memoryview of it. No chunk is within eight items of the size of the address space,
so that only the products of `array_new` can overflow.
-/

namespace MicroPython.ArrayObject

open MemoryArea

/-- The bytes of an item. -/
abbrev Item := List UInt8

/-- A write outside `items`. -/
inductive Fault where
  /-- In `items`. -/
  | items
  deriving DecidableEq

/-- How an operation ends. -/
inductive Outcome where
  | returned
  | raised
  deriving DecidableEq

/-- `mp_obj_array_t` -/
structure ArrayObj where
  /-- The item size of `typecode`. -/
  itemSz : ℕ
  /-- `free` -/
  free : ℕ
  /-- `len` -/
  len : ℕ
  /-- The memory at `items`. -/
  items : List Item

/-- The items of an array. -/
def ArrayObj.contents (o : ArrayObj) : List Item := o.items.take o.len

/-- What a reallocation does. -/
inductive Renewed where
  | fails
  | inPlace
  /-- The items are copied to another chunk. -/
  | moves
  deriving DecidableEq

/-- A reallocation, with what is in the memory that it adds. -/
structure Renewal where
  /-- What it does. -/
  result : Renewed
  /-- The items in new memory. -/
  garbage : ℕ→Item

/-- `m_renew`, or its exception. -/
def mRenew (items : List Item) (n : ℕ) (r : Renewal) : Option (List Item) :=
  match r.result with
  | .fails => none
  | _ => some (resize items n r.garbage)

/-- An item of zeros. -/
def zeroItem (itemSz : ℕ) : Item := List.replicate itemSz 0

/-- The items in bytes, without those of an item that is not whole. -/
def itemsOf (itemSz : ℕ) (bytes : List UInt8) : List Item :=
  (List.range (bytes.length/itemSz)).map fun i => (bytes.drop (i*itemSz)).take itemSz

/-- Where a buffer is. -/
inductive Source (α : Type) where
  | other (content : α)
  /-- The items of the array itself between two indices, as far as there are any. -/
  | own (start stop : ℕ)

/-! ## Appending -/

/-- The room that `array_append` makes. -/
def makeRoom (self : ArrayObj) (r : Renewal) : Except Fault (ArrayObj×Outcome) :=
  if self.free=0 then
    let self := {self with free := 8}
    match mRenew self.items (self.len+self.free) r with
    | none => .ok (self,.raised)
    | some items =>
      match store items (self.len+1)
          (List.replicate (self.free-1) (zeroItem self.itemSz)) with
      | none => .error .items
      | some items => .ok ({self with items := items},.returned)
  else .ok (self,.returned)

/-- `array_append`, of an object that is stored as an item or cannot be. -/
def arrayAppend (self : ArrayObj) (arg : Option Item) (r : Renewal) :
    Except Fault (ArrayObj×Outcome) :=
  match makeRoom self r with
  | .error e => .error e
  | .ok (self,.raised) => .ok (self,.raised)
  | .ok (self,.returned) =>
    match arg with
    | none => .ok (self,.raised)
    | some item =>
      match store self.items self.len [item] with
      | none => .error .items
      | some items =>
        .ok ({self with
          items := items
          len := self.len+1
          free := self.free-1},.returned)

/-! ## Extending -/

/-- The items of a buffer of bytes, from the memory of the array if they are there. -/
def Source.read (self : ArrayObj) (mem : List Item) : Source (List UInt8)→List Item
  | .other bytes => itemsOf self.itemSz bytes
  | .own start stop => (mem.take (min stop self.len)).drop start

/-- The memory that a pointer into the old items leads to after a reallocation. A
chunk that is left keeps its content. -/
def oldItems (old new : List Item) (r : Renewal) : List Item :=
  match r.result with
  | .moves => old
  | _ => new

/-- The copy at the end of `array_extend`. -/
def extendWith (self : ArrayObj) (free : ℕ) (items src : List Item) :
    Except Fault (ArrayObj×Outcome) :=
  match store items self.len src with
  | none => .error .items
  | some items =>
    .ok ({self with
      items := items
      free := free
      len := self.len+src.length},.returned)

/-- `array_extend`, of a buffer or another object. `+=` is the same. -/
def arrayExtend (self : ArrayObj) (arg : Option (Source (List UInt8))) (r : Renewal) :
    Except Fault (ArrayObj×Outcome) :=
  match arg with
  | none => .ok (self,.raised)
  | some src =>
    let len := (src.read self self.items).length
    if self.free < len then
      match mRenew self.items (self.len+len) r with
      | none => .ok (self,.raised)
      | some items => extendWith self 0 items (src.read self (oldItems self.items items r))
    else extendWith self (self.free-len) self.items (src.read self self.items)

/-! ## Slice assignment -/

/-- A slice object with integers or `None`. -/
structure SliceIndex where
  start : Option ℤ
  stop : Option ℤ
  step : Option ℤ

/-- `mp_seq_get_fast_slice_indexes` when the step is one; otherwise an exception
follows. -/
def mpSeqGetFastSliceIndexes (len : ℕ) (slice : SliceIndex) : Option (ℕ×ℕ) :=
  if slice.step.getD 1=1 then
    let start := slice.start.getD 0
    let start := if start < 0 then
        let start := len+start
        if start < 0 then 0 else start
      else if (len : ℤ) < start then len else start
    let stop := slice.stop.getD len
    let stop := if stop < 0 then
        let stop := len+stop
        if stop < 0 then -1 else stop
      else if (len : ℤ) < stop then len else stop
    let stop := if stop < start then start else stop
    some (start.toNat,stop.toNat)
  else none

/-- What is assigned to a slice. -/
inductive Value where
  /-- An array, a bytearray or a memoryview, with the size of its items. -/
  | array (itemSz : ℕ) (src : Source (List Item))
  | bytes (data : List UInt8)
  | unsupported

/-- The items of a value that is compatible. -/
def Value.source (o : ArrayObj) : Value→Option (Source (List Item))
  | .array itemSz src => if itemSz=o.itemSz then some src else none
  | .bytes data => if o.itemSz=1 then some (.other (data.map fun b => [b])) else none
  | .unsupported => none

/-- `src_items`, from the memory of the array if they are there. -/
def Source.items (len : ℕ) (mem : List Item) : Source (List Item)→List Item
  | .other items => items
  | .own start stop => (mem.take (min stop len)).drop start

/-- `mp_seq_replace_slice_grow_inplace`: the items after the slice are moved, then
those of the source, which may depend on the memory, are copied. -/
def mpSeqReplaceSliceGrowInplace (dest : List Item) (destLen start stop srcLen : ℕ)
    (src : List Item→List Item) : Option (List Item) :=
  match store dest (start+srcLen) ((dest.take destLen).drop stop) with
  | none => none
  | some dest => store dest start (src dest)

/-- The assignment to a slice that grows, with the source as it is read from the
memory. -/
def growSlice (o : ArrayObj) (items : List Item) (free start stop srcLen : ℕ)
    (src : List Item→List Item) : Except Fault (ArrayObj×Outcome) :=
  match mpSeqReplaceSliceGrowInplace items o.len start stop srcLen src with
  | none => .error .items
  | some items =>
    .ok ({o with
      items := items
      free := free
      len := o.len+(srcLen-(stop-start))},.returned)

/-- Whether `memcpy` gets areas that overlap. -/
def Overlaps (start srcLen : ℕ) : Source (List Item)→Prop
  | .other _ => False
  | .own s _ => 0 < srcLen∧s < start+srcLen∧start < s+srcLen

instance (start srcLen : ℕ) (src : Source (List Item)) : Decidable (Overlaps start srcLen src) :=
  match src with
  | .other _ => inferInstanceAs (Decidable False)
  | .own _ _ => inferInstanceAs (Decidable (_∧_))

/-- What comes from outside in a slice assignment. -/
structure SliceOutcome where
  /-- The reallocation. -/
  renewal : Renewal
  /-- What `memcpy` leaves in the slice when the areas overlap. -/
  copied : ℕ→Item

/-- The items that `memcpy` leaves in the slice. -/
def memcpyResult (o : ArrayObj) (start : ℕ) (src : Source (List Item)) (e : SliceOutcome) :
    List Item :=
  let items := src.items o.len o.items
  if Overlaps start items.length src then (List.range items.length).map e.copied
  else items

/-- The assignment to a slice that does not grow: `mp_seq_replace_slice_no_grow` and
`mp_seq_clear`. -/
def keepSlice (o : ArrayObj) (start stop : ℕ) (src : List Item) : Except Fault (ArrayObj×Outcome) :=
  let drop := stop-start-src.length
  match store o.items start src with
  | none => .error .items
  | some items =>
    match store items (start+src.length) ((items.take o.len).drop stop) with
    | none => .error .items
    | some items =>
      match store items (o.len-drop) (List.replicate drop (zeroItem o.itemSz)) with
      | none => .error .items
      | some items =>
        .ok ({o with
          items := items
          len := o.len-drop},.returned)

/-- `array_subscr` with a slice and a value, on an array or a bytearray. -/
def arraySubscr (o : ArrayObj) (index : SliceIndex) (value : Value) (e : SliceOutcome) :
    Except Fault (ArrayObj×Outcome) :=
  match mpSeqGetFastSliceIndexes o.len index with
  | none => .ok (o,.raised)
  | some (start,stop) =>
    match value.source o with
    | none => .ok (o,.raised)
    | some src =>
      let srcLen := (src.items o.len o.items).length
      if stop-start < srcLen then
        if o.free < srcLen-(stop-start) then
          match mRenew o.items (o.len+(srcLen-(stop-start))) e.renewal with
          | none => .ok (o,.raised)
          | some items =>
            growSlice o items 0 start stop srcLen
              fun mem => src.items o.len (oldItems o.items mem e.renewal)
        else growSlice o o.items o.free start stop srcLen (fun mem => src.items o.len mem)
      else keepSlice o start stop (memcpyResult o start src e)

/-! ## Construction -/

/-- The number of values of `size_t`. -/
def sizeT : ℕ := 2^32

/-- What the allocator does for a new array. -/
structure Allocation where
  /-- There is no memory. -/
  fails : Bool
  /-- The items in new memory. -/
  garbage : ℕ→Item

/-- `array_new`, with the overflow of its product. -/
def arrayNew (itemSz n : ℕ) (a : Allocation) : Option ArrayObj :=
  let numBytes := itemSz*n%sizeT
  if a.fails∧numBytes≠0 then none
  else some ⟨itemSz,0,n,(List.range (numBytes/itemSz)).map a.garbage⟩

/-- What an array is made from. -/
inductive Initializer where
  | empty
  | raw (bytes : List UInt8) (short : bytes.length < sizeT)
  | blank (n : ℕ) (short : n < sizeT)
  /-- An iterable: the length it tells if any, what its objects are stored as, and
  whether it raises an exception after them. -/
  | iterable (lenIn : Option ℕ) (objects : List (Option Item)) (raises : Bool)

/-- The loop of `array_construct`. -/
def constructLoop (len : ℕ) (raises : Bool) (renewals : ℕ→Renewal) :
    ArrayObj→ℕ→List (Option Item)→Except Fault (ArrayObj×Outcome)
  | array,_,[] => .ok (array,if raises then .raised else .returned)
  | array,i,object::objects =>
    if len=0 then
      match arrayAppend array object (renewals i) with
      | .error e => .error e
      | .ok (array,.raised) => .ok (array,.raised)
      | .ok (array,.returned) => constructLoop len raises renewals array (i+1) objects
    else
      match object with
      | none => .ok (array,.raised)
      | some item =>
        match store array.items i [item] with
        | none => .error .items
        | some items =>
          constructLoop len raises renewals {array with items := items} (i+1) objects

/-- What comes from outside in a construction. -/
structure ConstructOutcome where
  allocation : Allocation
  /-- The reallocations of `array_append`. -/
  renewals : ℕ→Renewal

/-- `array_make_new`, `bytearray_make_new` and `array_construct`. A bad type code has
no item size. -/
def construct (itemSz : ℕ) (init : Initializer) (e : ConstructOutcome) :
    Except Fault (Option ArrayObj) :=
  if itemSz=0 then .ok none
  else
    match init with
    | .empty => .ok (arrayNew itemSz 0 e.allocation)
    | .raw bytes _ =>
      match arrayNew itemSz (bytes.length/itemSz) e.allocation with
      | none => .ok none
      | some o =>
        match store o.items 0 (itemsOf itemSz bytes) with
        | none => .error .items
        | some items => .ok (some {o with items := items})
    | .blank n _ =>
      match arrayNew 1 n e.allocation with
      | none => .ok none
      | some o =>
        match store o.items 0 (List.replicate n (zeroItem 1)) with
        | none => .error .items
        | some items => .ok (some {o with items := items})
    | .iterable lenIn objects raises =>
      match arrayNew itemSz (lenIn.getD 0) e.allocation with
      | none => .ok none
      | some array =>
        match constructLoop (lenIn.getD 0) raises e.renewals array 0 objects with
        | .error e => .error e
        | .ok (_,.raised) => .ok none
        | .ok (array,.returned) => .ok (some array)

/-! ## Operations -/

/-- An operation on a variable that holds an array. -/
inductive Op where
  /-- A new array is assigned to the variable. -/
  | construct (itemSz : ℕ) (init : Initializer) (e : ConstructOutcome)
  /-- `append` -/
  | append (arg : Option Item) (r : Renewal)
  /-- `extend` or `+=` -/
  | extend (arg : Option (Source (List UInt8))) (r : Renewal)
  | sliceAssign (index : SliceIndex) (value : Value) (e : SliceOutcome)

/-- An operation on the array of the variable. -/
def onArray (s : Option ArrayObj) (f : ArrayObj→Except Fault (ArrayObj×Outcome)) :
    Except Fault (Option ArrayObj×Outcome) :=
  match s with
  | none => .ok (none,.raised)
  | some o =>
    match f o with
    | .error e => .error e
    | .ok (o,out) => .ok (some o,out)

/-- The step of an operation. -/
def step (s : Option ArrayObj) : Op→Except Fault (Option ArrayObj×Outcome)
  | .construct itemSz init e =>
    match ArrayObject.construct itemSz init e with
    | .error e => .error e
    | .ok none => .ok (s,.raised)
    | .ok (some o) => .ok (some o,.returned)
  | .append arg r => onArray s fun o => arrayAppend o arg r
  | .extend arg r => onArray s fun o => arrayExtend o arg r
  | .sliceAssign index value e => onArray s fun o => arraySubscr o index value e

end MicroPython.ArrayObject
