import MicroPython.ArrayObject
import MicroPython.InputMachine

/-!
# What arrays contain

An array is a sequence of items. As long as it has as many items allocated as it
counts, an operation keeps this and does what it does on a sequence exactly when
none of the paths is taken on which the counts are not brought up to date, a length
is believed that an object tells, or a source is read after it was overwritten.
-/

namespace MicroPython.ArrayContents

open Nat List MemoryArea ArrayObject InputMachine

/-! ## Sequences -/

/-- An index of a slice, counted from the end when it is negative, within bounds. -/
def bound (len : ℕ) (default : ℕ) : Option ℤ→ℕ
  | none => default
  | some i => if i < 0 then (len+i).toNat else min i.toNat len

/-- The slice of a sequence of a length. -/
def sliceBounds (len : ℕ) (slice : SliceIndex) : ℕ×ℕ :=
  let start := bound len 0 slice.start
  (start,max start (bound len len slice.stop))

/-- The items of a sequence that an initializer gives. -/
def initial (itemSz : ℕ) : Initializer→List Item
  | .empty => []
  | .raw bytes _ => itemsOf itemSz bytes
  | .blank n _ => List.replicate n (zeroItem 1)
  | .iterable _ objects _ => objects.filterMap id

/-- The items of a buffer, as those of an array or a part of it. -/
def sourceItems (itemSz : ℕ) (c : List Item) : Source (List UInt8)→List Item
  | .other bytes => itemsOf itemSz bytes
  | .own start stop => (c.take stop).drop start

/-- The items that are assigned to a slice. -/
def valueItems (c : List Item) : Value→List Item
  | .array _ (.other items) => items
  | .array _ (.own start stop) => (c.take stop).drop start
  | .bytes data => data.map fun b => [b]
  | .unsupported => []

/-- An operation that returns, on a sequence. -/
def expected (itemSz : ℕ) (c : List Item) : Op→List Item
  | .construct itemSz init _ => initial itemSz init
  | .append arg _ => c++arg.toList
  | .extend arg _ => c++(arg.map (sourceItems itemSz c)).getD []
  | .sliceAssign index value _ =>
    c.take (sliceBounds c.length index).1++valueItems c value++c.drop (sliceBounds c.length index).2

/-! ## Claims about a step -/

/-- The items allocated are those counted. -/
def Counted (o : ArrayObj) : Prop := o.len+o.free=o.items.length

/-- The sequence that a variable holds. -/
def contents : Option ArrayObj→List Item
  | none => []
  | some o => o.contents

/-- The item size of the array that a variable holds. -/
def itemSz : Option ArrayObj→ℕ
  | none => 0
  | some o => o.itemSz

/-- The sequence after an operation that ends in one way or the other. -/
def after (s : Option ArrayObj) (op : Op) : Outcome→List Item
  | .returned => expected (itemSz s) (contents s) op
  | .raised => contents s

/-- An operation writes only to the memory of the items, leaves the counts right, and
does what it does on a sequence, or nothing with an exception. -/
def Faithful (s : Option ArrayObj) (op : Op) : Prop :=
  ∃ t out,step s op=.ok (t,out)∧(∀ o,t=some o → Counted o)∧contents t=after s op out

/-- The items before an object that cannot be stored. -/
def stored (objects : List (Option Item)) : List (Option Item) :=
  objects.takeWhile Option.isSome

/-- A construction from an iterable that tells a length: when memory is found, no more
items are stored than there is room for, and when no exception comes there are as
many as told. -/
def TellsLength (itemSz len : ℕ) (objects : List (Option Item)) (raises : Bool)
    (a : Allocation) : Prop :=
  a.fails=true∧itemSz*len%sizeT≠0∨(stored objects).length ≤ itemSz*len%sizeT/itemSz∧
      (stored objects=objects → raises=false → objects.length=len)

/-- The items of a source after those behind the slice were moved within the same
memory. -/
def afterMove (c : List Item) (start stop srcLen : ℕ) (src : Source (List Item)) : List Item :=
  src.items c.length (c.take (start+srcLen)++c.drop stop)

/-- A slice assignment that keeps the length, with a source that is not copied within
itself or copied well, or one that needs more room than there is, with a source that
is elsewhere, left behind or not changed by the move. -/
def Assigns (o : ArrayObj) (start stop : ℕ) (src : Source (List Item)) (e : SliceOutcome) : Prop :=
  let items := src.items o.len o.contents
  items.length=stop-start∧(Overlaps start items.length src →
        (List.range items.length).map e.copied=items)∨
    stop-start+o.free < items.length∧
      (e.renewal.result=.inPlace → afterMove o.contents start stop items.length src=items)

/-- The conditions under which a step is faithful. -/
def Sound (s : Option ArrayObj) : Op→Prop
  | .construct itemSz (.iterable (some len) objects raises) e =>
    0 < itemSz → 0 < len → TellsLength itemSz len objects raises e.allocation
  | .construct _ _ _ => True
  | .append _ r => ∀ o,s=some o → o.free=0 → r.result≠.fails
  | .extend _ _ => True
  | .sliceAssign index value e =>
    ∀ o start stop src,s=some o → mpSeqGetFastSliceIndexes o.len index=some (start,stop) →
      value.source o=some src → Assigns o start stop src e

/-! ## Sequences in memory -/

variable {o : ArrayObj}

theorem contents_length (h : Counted o) : o.contents.length=o.len := by
  rw [Counted] at h
  rw [ArrayObj.contents,length_take]
  omega

/-- An index of a slice. -/
theorem bound_le (len : ℕ) (i : Option ℤ) : bound len 0 i≤len∧bound len len i≤len := by
  cases i with
  | none => exact ⟨zero_le _,Nat.le_refl _⟩
  | some i =>
    simp only [bound]
    split <;> omega

theorem sliceBounds_le (len : ℕ) (slice : SliceIndex) :
    (sliceBounds len slice).1≤(sliceBounds len slice).2∧(sliceBounds len slice).2≤len := by
  have hstart := (bound_le len slice.start).1
  have hstop := (bound_le len slice.stop).2
  simp only [sliceBounds]
  omega

variable {len start stop : ℕ}

/-- The indexes of a slice are its bounds. -/
theorem fastSliceIndexes_eq {slice : SliceIndex}
    (h : mpSeqGetFastSliceIndexes len slice=some (start,stop)) :
    (start,stop)=sliceBounds len slice := by
  rw [mpSeqGetFastSliceIndexes] at h
  split at h
  case isFalse => cases h
  case isTrue =>
    have hall := Option.some.inj h
    rw [←hall,sliceBounds,Prod.mk.injEq]
    have hfirst : ((if slice.start.getD 0 < 0 then
        if len+slice.start.getD 0 < 0 then 0 else len+slice.start.getD 0
        else if (len : ℤ) < slice.start.getD 0 then len else slice.start.getD 0) : ℤ)=
          bound len 0 slice.start := by
      cases slice.start with
      | none =>
        simp only [Option.getD_none,bound]
        split <;> omega
      | some i =>
        simp only [Option.getD_some,bound]
        split
        · split <;> omega
        · split <;> omega
    constructor
    · rw [hfirst]
      exact Int.toNat_natCast _
    · dsimp only
      rw [hfirst]
      cases slice.stop with
      | none =>
        simp only [Option.getD_none,bound]
        split <;> split <;> omega
      | some i =>
        simp only [Option.getD_some,bound]
        split
        · split <;> split <;> omega
        · split <;> split <;> omega

theorem source_items (o : ArrayObj) (src : Source (List Item)) :
    src.items o.len o.items=src.items o.len o.contents := by
  cases src with
  | other items => rfl
  | own start stop =>
    show (o.items.take _).drop _=((o.items.take o.len).take _).drop _
    rw [take_take,Nat.min_eq_left (Nat.min_le_right _ _)]

variable {src : Source (List Item)}

variable {value : Value} {r : Renewal} {n : ℕ} {items : List Item}

/-- The items of a value. -/
theorem valueItems_eq (h : Counted o) (hsrc : value.source o=some src) :
    valueItems o.contents value=src.items o.len o.contents := by
  have hclip : ∀ start stop,(o.contents.take stop).drop start=
      (o.contents.take (min stop o.len)).drop start := by
    intro start stop
    have hlen := contents_length h
    congr 1
    by_cases hle : stop≤o.len
    case pos => rw [Nat.min_eq_left hle]
    case neg =>
      rw [Nat.min_eq_right (by omega),take_of_length_le (by omega),take_of_length_le (by omega)]
  cases value with
  | array sz from' =>
    rw [Value.source] at hsrc
    split at hsrc
    case isFalse => cases hsrc
    case isTrue =>
      cases hsrc
      cases src with
      | other items => rfl
      | own start stop => exact hclip start stop
  | bytes data =>
    rw [Value.source] at hsrc
    split at hsrc
    case isFalse => cases hsrc
    case isTrue =>
      cases hsrc
      rfl
  | unsupported => cases hsrc

/-! ## Appending -/

/-- A reallocation that does not fail. -/
theorem mRenew_ok (items : List Item) (n : ℕ) (hr : r.result≠.fails) :
    mRenew items n r=some (resize items n r.garbage) := by
  rw [mRenew]
  cases hresult : r.result with
  | fails => exact absurd hresult hr
  | inPlace => rfl
  | moves => rfl

/-- Room for an item, when the reallocation does not fail. -/
theorem makeRoom_ok (h : Counted o) (hr : o.free=0 → r.result≠.fails) :
    ∃ p,makeRoom o r=.ok (p,.returned)∧Counted p∧p.len=o.len∧p.itemSz=o.itemSz∧
      p.contents=o.contents∧0 < p.free := by
  rw [Counted] at h
  rw [makeRoom]
  split
  case isFalse hfree => exact ⟨o,rfl,h,rfl,rfl,rfl,by omega⟩
  case isTrue hfree =>
    have hgrow : o.items.length≤o.len+8 := by omega
    have hrenew := mRenew_ok o.items (o.len+8) (hr hfree)
    have hlength := length_resize hgrow r.garbage
    have hroom : o.len+1+(List.replicate 7 (zeroItem o.itemSz)).length≤
        (resize o.items (o.len+8) r.garbage).length := by
      rw [length_replicate]
      omega
    have hstore := store_ok hroom
    simp only [hrenew]
    rw [hstore]
    refine ⟨_,rfl,?_,rfl,rfl,?_,succ_pos 7⟩
    · rw [Counted]
      show o.len+8=_
      rw [length_splice hroom,hlength]
    · show (_ : List Item).take o.len=o.items.take o.len
      rw [take_splice_of_le hroom (le_succ _),take_resize hgrow (by omega)]

/-- A failed reallocation leaves wrong counts. -/
theorem makeRoom_failed (h : Counted o) (hfree : o.free=0)
    (hr : r.result=.fails) : ∃ p,makeRoom o r=.ok (p,.raised)∧¬Counted p := by
  refine ⟨{o with free := 8},?_,?_⟩
  · rw [makeRoom,if_pos hfree]
    simp only [mRenew,hr]
  · rw [Counted] at h
    show ¬o.len+8=o.items.length
    omega

/-- An append, when the reallocation does not fail. -/
theorem arrayAppend_ok (h : Counted o) (hr : o.free=0 → r.result≠.fails) (arg : Option Item) :
    ∃ p,Counted p∧p.itemSz=o.itemSz∧
      match arg with
      | none => arrayAppend o none r=.ok (p,.raised)∧p.contents=o.contents
      | some item => arrayAppend o (some item) r=.ok (p,.returned)∧
          p.contents=o.contents++[item] := by
  obtain ⟨p,hroom,hcounted,hlen,hsz,hcontents,hfree⟩ := makeRoom_ok h hr
  cases arg with
  | none =>
    refine ⟨p,hcounted,hsz,?_,hcontents⟩
    rw [arrayAppend,hroom]
  | some item =>
    have hsum := hcounted
    rw [Counted] at hsum
    have hfits : p.len+[item].length≤p.items.length := by
      rw [length_singleton]
      omega
    have hstore := store_ok hfits
    refine ⟨{p with
      items := p.items.take p.len++[item]++p.items.drop (p.len+[item].length)
      len := p.len+1
      free := p.free-1},?_,hsz,?_,?_⟩
    · rw [Counted]
      show p.len+1+(p.free-1)=_
      rw [length_splice hfits]
      omega
    · rw [arrayAppend,hroom]
      simp only [hstore]
    · show (_ : List Item).take (p.len+[item].length)=_
      rw [take_splice hfits,←hcontents]
      rfl

/-! ## Extending -/

/-- The items of a buffer are those of the sequence. -/
theorem read_eq (h : Counted o) (src : Source (List UInt8)) {mem : List Item}
    (hmem : mem.take o.len=o.contents) :
    src.read o mem=sourceItems o.itemSz o.contents src := by
  cases src with
  | other bytes => rfl
  | own start stop =>
    show (mem.take (min stop o.len)).drop start=(o.contents.take stop).drop start
    rw [←hmem,take_take]

/-- The copy of items behind those of an array. -/
theorem extendWith_ok {free : ℕ} {items src : List Item} (hitems : items.take o.len=o.contents)
    (hcount : o.len+src.length+free=items.length) :
    ∃ p,extendWith o free items src=.ok (p,.returned)∧Counted p∧p.contents=o.contents++src := by
  have hfits : o.len+src.length ≤ items.length := by omega
  have hstore := store_ok hfits
  refine ⟨{o with
    items := items.take o.len++src++items.drop (o.len+src.length)
    free := free
    len := o.len+src.length},?_,?_,?_⟩
  · rw [extendWith,hstore]
  · rw [Counted]
    show o.len+src.length+free=_
    rw [length_splice hfits]
    exact hcount
  · show (_ : List Item).take (o.len+src.length)=_
    rw [take_splice hfits,hitems]

/-- An old pointer leads to the items of the sequence after a reallocation. -/
theorem oldItems_take (h : Counted o) (hn : o.items.length≤n) (r : Renewal) :
    (oldItems o.items (resize o.items n r.garbage) r).take o.len=o.contents := by
  rw [Counted] at h
  have hnew := take_resize hn (show o.len≤o.items.length by omega) r.garbage
  rw [oldItems]
  cases r.result with
  | fails => exact hnew
  | inPlace => exact hnew
  | moves => rfl

/-- An extension. -/
theorem arrayExtend_ok (h : Counted o) (arg : Option (Source (List UInt8))) (r : Renewal) :
    ∃ p out,arrayExtend o arg r=.ok (p,out)∧Counted p∧p.contents=
        match out with
        | .returned => o.contents++(arg.map (sourceItems o.itemSz o.contents)).getD []
        | .raised => o.contents := by
  cases arg with
  | none => exact ⟨o,.raised,rfl,h,rfl⟩
  | some src =>
    have hread : src.read o o.items=sourceItems o.itemSz o.contents src := read_eq h src rfl
    have hsum := h
    rw [Counted] at hsum
    rw [arrayExtend]
    split
    case isFalse hroom =>
      rw [hread] at hroom ⊢
      obtain ⟨p,hp,hcounted,hcontents⟩ := @extendWith_ok o
        (o.free-(sourceItems o.itemSz o.contents src).length) o.items
        (sourceItems o.itemSz o.contents src) rfl (by omega)
      exact ⟨p,.returned,hp,hcounted,hcontents⟩
    case isTrue hroom =>
      rw [hread] at hroom ⊢
      by_cases hresult : r.result=.fails
      case pos =>
        refine ⟨o,.raised,?_,h,rfl⟩
        simp only [mRenew,hresult]
      case neg =>
        have hgrow : o.items.length≤o.len+(sourceItems o.itemSz o.contents src).length := by
          omega
        have hold := read_eq h src (oldItems_take h hgrow r)
        obtain ⟨p,hp,hcounted,hcontents⟩ := @extendWith_ok o 0
          (resize o.items (o.len+(sourceItems o.itemSz o.contents src).length) r.garbage)
          (sourceItems o.itemSz o.contents src)
          (take_resize hgrow (show o.len≤o.items.length by omega) r.garbage)
          (length_resize hgrow r.garbage).symm
        rw [mRenew_ok _ _ hresult]
        simp only [hold]
        exact ⟨p,.returned,hp,hcounted,hcontents⟩

/-! ## Slice assignment -/

/-- A source within the array depends on its items only. -/
theorem items_take (src : Source (List Item)) (len : ℕ) (mem : List Item) :
    src.items len (mem.take len)=src.items len mem := by
  cases src with
  | other items => rfl
  | own start stop =>
    show ((mem.take len).take _).drop _=(mem.take _).drop _
    rw [List.take_take,Nat.min_eq_left (Nat.min_le_right _ _)]

/-- A source has as many items in every memory that holds those of the array. -/
theorem items_length (src : Source (List Item)) {mem mem' : List Item}
    (h : len ≤ mem.length) (h' : len ≤ mem'.length) :
    (src.items len mem).length=(src.items len mem').length := by
  cases src with
  | other items => rfl
  | own start stop =>
    show ((mem.take _).drop _).length=((mem'.take _).drop _).length
    rw [length_drop,length_drop,length_take,length_take]
    omega

/-- The memory after the items behind a slice were moved. -/
theorem moved_memory {srcLen : ℕ}
    (hitems : items.take o.len=o.contents) (hcl : o.contents.length=o.len)
    (hbounds : start ≤ stop∧stop≤o.len) (hgrows : stop-start ≤ srcLen)
    (hroom : o.len+(srcLen-(stop-start)) ≤ items.length) :
    ∃ mem,store items (start+srcLen) ((items.take o.len).drop stop)=some mem∧
      mem.length=items.length∧mem.take start=o.contents.take start∧
      (mem.drop (start+srcLen)).take (o.len-stop)=o.contents.drop stop∧
      mem.take o.len=(o.contents.take (start+srcLen)++o.contents.drop stop).take o.len := by
  have htail : (o.contents.drop stop).length=o.len-stop := by
    rw [length_drop,hcl]
  have hfits : start+srcLen+(o.contents.drop stop).length ≤ items.length := by
    rw [htail]
    omega
  have hfront : (items.take (start+srcLen)).length=start+srcLen := by
    rw [length_take]
    omega
  have htake : ∀ k,k≤o.len → items.take k=o.contents.take k := by
    intro k hk
    rw [←hitems,take_take,Nat.min_eq_left hk]
  rw [hitems]
  refine ⟨_,store_ok hfits,length_splice hfits,?_,?_,?_⟩
  · rw [take_splice_of_le hfits (le_add_right _ _),htake start (by omega)]
  · rw [append_assoc,drop_left' hfront,take_left' htail]
  · by_cases hle : start+srcLen≤o.len
    case pos =>
      have hcut : o.len≤(o.contents.take (start+srcLen)++o.contents.drop stop).length := by
        rw [length_append,length_take,hcl,htail]
        omega
      rw [htake _ hle,take_append_of_le_length hcut]
    case neg =>
      rw [take_splice_of_le hfits (by omega),hitems,
        take_of_length_le (by omega : o.contents.length ≤ start+srcLen),
        take_left' hcl]

/-- A slice that grows within the memory. -/
theorem growSlice_ok {items : List Item} {free start stop srcLen : ℕ}
    {src : List Item→List Item} (hitems : items.take o.len=o.contents)
    (hcl : o.contents.length=o.len) (hbounds : start ≤ stop∧stop≤o.len)
    (hgrows : stop-start ≤ srcLen) (hroom : o.len+(srcLen-(stop-start)) ≤ items.length)
    (hsrc : ∀ mem : List Item,mem.length=items.length → (src mem).length=srcLen) :
    ∃ p mem,growSlice o items free start stop srcLen src=.ok (p,.returned)∧
      p.len=o.len+(srcLen-(stop-start))∧p.free=free∧p.items.length=items.length∧
      p.contents=o.contents.take start++src mem++o.contents.drop stop∧
      mem.length=items.length∧
      mem.take o.len=(o.contents.take (start+srcLen)++o.contents.drop stop).take o.len := by
  obtain ⟨mem,hstore,hlength,hstart,htail,hmem⟩ :=
    moved_memory hitems hcl hbounds hgrows hroom
  have hlen := hsrc mem hlength
  have hfits : start+(src mem).length ≤ mem.length := by omega
  refine ⟨{o with
    items := mem.take start++src mem++mem.drop (start+(src mem).length)
    free := free
    len := o.len+(srcLen-(stop-start))},mem,?_,rfl,rfl,?_,?_,hlength,hmem⟩
  · rw [growSlice,mpSeqReplaceSliceGrowInplace,hstore]
    simp only [store_ok hfits]
  · rw [length_splice hfits,hlength]
  · have hfront : (mem.take start++src mem).length=start+srcLen := by
      rw [length_append,length_take,hlen]
      omega
    have hsplit : o.len+(srcLen-(stop-start))=start+srcLen+(o.len-stop) := by omega
    show (_ : List Item).take (o.len+(srcLen-(stop-start)))=_
    rw [hsplit,take_append,hfront,take_of_length_le (by rw [hfront]; omega),
      Nat.add_sub_cancel_left,hlen,htail,hstart]

/-- The memory after a source of the same length was copied to a slice. -/
theorem copied_memory {src : List Item} (h : Counted o)
    (hbounds : start ≤ stop∧stop≤o.len) (hsrc : src.length=stop-start) :
    ∃ mem,store o.items start src=some mem∧mem.length=o.items.length∧
      mem.take o.len=o.contents.take start++src++o.contents.drop stop := by
  have hsum := h
  rw [Counted] at hsum
  have hend : start+src.length=stop := by omega
  have hfits : start+src.length≤o.items.length := by omega
  have hfront : (o.items.take start++src).length=stop := by
    rw [length_append,length_take]
    omega
  have hstart : o.items.take start=o.contents.take start := by
    rw [ArrayObj.contents,take_take,Nat.min_eq_left (by omega)]
  have htail : (o.items.drop stop).take (o.len-stop)=o.contents.drop stop := by
    rw [ArrayObj.contents,drop_take]
  refine ⟨_,store_ok hfits,length_splice hfits,?_⟩
  rw [take_append,hfront,take_of_length_le (by rw [hfront]; exact hbounds.2),hend,htail,hstart]

/-- A slice assignment that keeps the length. -/
theorem keepSlice_ok {src : List Item} (h : Counted o)
    (hbounds : start ≤ stop∧stop≤o.len) (hsrc : src.length=stop-start) :
    ∃ p,keepSlice o start stop src=.ok (p,.returned)∧Counted p∧
      p.contents=o.contents.take start++src++o.contents.drop stop := by
  have hsum := h
  rw [Counted] at hsum
  have hend : start+src.length=stop := by omega
  have hdrop : stop-start-src.length=0 := by omega
  obtain ⟨mem,hstore,hlength,hcontents⟩ := copied_memory h hbounds hsrc
  have hself : store mem stop ((mem.take o.len).drop stop)=some mem :=
    store_self hbounds.2 (by omega)
  refine ⟨{o with
    items := mem
    len := o.len-0},?_,?_,hcontents⟩
  · rw [keepSlice]
    simp only [hdrop,hstore,hend,hself,replicate_zero,store_nil]
  · rw [Counted]
    show o.len-0+o.free=mem.length
    rw [hlength]
    exact hsum

/-- A slice that shrinks leaves wrong counts. -/
theorem keepSlice_shrinks {src : List Item} (h : Counted o)
    (hbounds : start ≤ stop∧stop≤o.len) (hsrc : src.length < stop-start) {p : ArrayObj}
    {out : Outcome} (hp : keepSlice o start stop src=.ok (p,out)) : ¬Counted p := by
  have hsum := h
  rw [Counted] at hsum
  rw [keepSlice] at hp
  cases hfirst : store o.items start src with
  | none =>
    rw [hfirst] at hp
    cases hp
  | some mem1 =>
    simp only [hfirst] at hp
    cases hsecond : store mem1 (start+src.length) ((mem1.take o.len).drop stop) with
    | none =>
      rw [hsecond] at hp
      cases hp
    | some mem2 =>
      simp only [hsecond] at hp
      cases hthird : store mem2 (o.len-(stop-start-src.length))
          (List.replicate (stop-start-src.length) (zeroItem o.itemSz)) with
      | none =>
        rw [hthird] at hp
        cases hp
      | some mem3 =>
        simp only [hthird] at hp
        cases hp
        rw [Counted]
        show ¬o.len-(stop-start-src.length)+o.free=mem3.length
        rw [length_store hthird,length_store hsecond,length_store hfirst]
        omega

/-! ## Steps -/

theorem faithful_iff_of_ok {s : Option ArrayObj} {op : Op} {p : ArrayObj} {out : Outcome}
    (hstep : step s op=.ok (some p,out)) :
    Faithful s op↔Counted p∧p.contents=after s op out := by
  constructor
  · rintro ⟨t,out',hstep',hcounted,hcontents⟩
    rw [hstep] at hstep'
    cases hstep'
    exact ⟨hcounted p rfl,hcontents⟩
  · rintro ⟨hcounted,hcontents⟩
    refine ⟨some p,out,hstep,fun q hq => ?_,hcontents⟩
    cases hq
    exact hcounted

/-- An append is faithful when it needs no reallocation or one that does not fail. -/
theorem append_faithful_iff (h : Counted o) (arg : Option Item) (r : Renewal) :
    Faithful (some o) (.append arg r)↔(o.free=0 → r.result≠.fails) := by
  constructor
  · intro hfaithful hfree hfails
    obtain ⟨p,hroom,hwrong⟩ := makeRoom_failed h hfree hfails
    have happend : arrayAppend o arg r=.ok (p,.raised) := by rw [arrayAppend,hroom]
    have hstep : step (some o) (.append arg r)=.ok (some p,.raised) := by
      rw [step,onArray,happend]
    exact hwrong ((faithful_iff_of_ok hstep).mp hfaithful).1
  · intro hr
    obtain ⟨p,hcounted,_,happend⟩ := arrayAppend_ok h hr arg
    cases arg with
    | none =>
      have hstep : step (some o) (.append none r)=.ok (some p,.raised) := by
        rw [step,onArray,happend.1]
      exact (faithful_iff_of_ok hstep).mpr ⟨hcounted,happend.2⟩
    | some item =>
      have hstep : step (some o) (.append (some item) r)=.ok (some p,.returned) := by
        rw [step,onArray,happend.1]
      exact (faithful_iff_of_ok hstep).mpr ⟨hcounted,happend.2⟩

theorem extend_faithful (h : Counted o) (arg : Option (Source (List UInt8))) (r : Renewal) :
    Faithful (some o) (.extend arg r) := by
  obtain ⟨p,out,hextend,hcounted,hcontents⟩ := arrayExtend_ok h arg r
  have hstep : step (some o) (.extend arg r)=.ok (some p,out) := by
    rw [step,onArray,hextend]
  refine (faithful_iff_of_ok hstep).mpr ⟨hcounted,?_⟩
  rw [hcontents]
  cases out <;> rfl

variable {index : SliceIndex}

/-- The contents that a slice assignment should leave. -/
theorem after_slice (h : Counted o)
    (hindex : mpSeqGetFastSliceIndexes o.len index=some (start,stop))
    (hvalue : value.source o=some src) (e : SliceOutcome) :
    after (some o) (.sliceAssign index value e) .returned=
      o.contents.take start++src.items o.len o.contents++o.contents.drop stop := by
  have hbounds := fastSliceIndexes_eq hindex
  have hafter : after (some o) (.sliceAssign index value e) .returned=
      expected o.itemSz o.contents (.sliceAssign index value e) := rfl
  rw [hafter,expected,contents_length h,←hbounds,valueItems_eq h hvalue]

/-- Items between the same items are the same. -/
theorem splice_inj {a b c d : List Item} : a++b++c=a++d++c↔b=d := by
  constructor
  · intro h
    exact append_cancel_left (append_cancel_right h)
  · intro h
    rw [h]

/-- A slice assignment that does not need more room. -/
theorem keep_faithful_iff (h : Counted o) {e : SliceOutcome}
    (hindex : mpSeqGetFastSliceIndexes o.len index=some (start,stop))
    (hvalue : value.source o=some src) (hbounds : start ≤ stop∧stop≤o.len)
    (hkeeps : ¬stop-start < (src.items o.len o.contents).length) :
    Faithful (some o) (.sliceAssign index value e)↔Assigns o start stop src e := by
  have hsubscr : arraySubscr o index value e=
      keepSlice o start stop (memcpyResult o start src e) := by
    rw [arraySubscr,hindex]
    simp only [hvalue,source_items]
    exact if_neg hkeeps
  have hlength : (memcpyResult o start src e).length=(src.items o.len o.contents).length := by
    rw [memcpyResult]
    simp only [source_items]
    split
    · rw [length_map,length_range]
    · rfl
  rcases Nat.lt_or_eq_of_le (Nat.le_of_not_lt hkeeps) with hshrinks | hsame
  · constructor
    · rintro ⟨t,out,hstep,hcounted,_⟩
      rw [step,onArray,hsubscr] at hstep
      cases hkeep : keepSlice o start stop (memcpyResult o start src e) with
      | error fault =>
        rw [hkeep] at hstep
        cases hstep
      | ok result =>
        rw [hkeep] at hstep
        cases hstep
        exact absurd (hcounted _ rfl) (keepSlice_shrinks h hbounds (by omega) hkeep)
    · rintro (⟨hlen,_⟩ | ⟨hlen,_⟩) <;> omega
  · obtain ⟨p,hkeep,hcounted,hcontents⟩ := keepSlice_ok h hbounds (hlength.trans hsame)
    have hstep : step (some o) (.sliceAssign index value e)=.ok (some p,.returned) := by
      rw [step,onArray,hsubscr,hkeep]
    have hexpected := after_slice h hindex hvalue e
    have hassigns : Assigns o start stop src e↔
        memcpyResult o start src e=src.items o.len o.contents := by
      rw [memcpyResult]
      simp only [source_items]
      constructor
      · rintro (⟨_,hcopied⟩ | ⟨hlen,_⟩)
        · split
          case isTrue hoverlaps => exact hcopied hoverlaps
          case isFalse => rfl
        · omega
      · intro hcopied
        refine .inl ⟨hsame,fun hoverlaps => ?_⟩
        rw [if_pos hoverlaps] at hcopied
        exact hcopied
    rw [faithful_iff_of_ok hstep,hcontents,hexpected,splice_inj,hassigns]
    exact and_iff_right hcounted

/-- A slice assignment that needs more room. -/
theorem grow_faithful_iff (h : Counted o) {e : SliceOutcome}
    (hindex : mpSeqGetFastSliceIndexes o.len index=some (start,stop))
    (hvalue : value.source o=some src) (hbounds : start ≤ stop∧stop≤o.len)
    (hgrows : stop-start < (src.items o.len o.contents).length) :
    Faithful (some o) (.sliceAssign index value e)↔Assigns o start stop src e := by
  have hcl := contents_length h
  have hsum := h
  rw [Counted] at hsum
  have hexpected := after_slice h hindex hvalue e
  have hlens : ∀ mem : List Item,o.len ≤ mem.length →
      (src.items o.len mem).length=(src.items o.len o.contents).length :=
    fun mem hmem => items_length src hmem (Nat.le_of_eq hcl.symm)
  by_cases hfree : o.free < (src.items o.len o.contents).length-(stop-start)
  case neg =>
    -- the room is there, and is not counted off
    have hsubscr : arraySubscr o index value e=
        growSlice o o.items o.free start stop (src.items o.len o.contents).length
          (fun mem => src.items o.len mem) := by
      rw [arraySubscr,hindex]
      simp only [hvalue,source_items,if_pos hgrows,if_neg hfree]
    obtain ⟨p,mem,hgrow,hplen,hpfree,hpitems,_⟩ := @growSlice_ok o o.items o.free start stop
      (src.items o.len o.contents).length (fun mem => src.items o.len mem) rfl hcl hbounds
      (Nat.le_of_lt hgrows) (by omega) fun mem hmem => hlens mem (by omega)
    have hstep : step (some o) (.sliceAssign index value e)=.ok (some p,.returned) := by
      rw [step,onArray,hsubscr,hgrow]
    rw [faithful_iff_of_ok hstep]
    constructor
    · rintro ⟨hcounted,_⟩
      rw [Counted] at hcounted
      omega
    · rintro (⟨hlen,_⟩ | ⟨hlen,_⟩) <;> omega
  case pos =>
    by_cases hfails : e.renewal.result=.fails
    case pos =>
      have hsubscr : arraySubscr o index value e=.ok (o,.raised) := by
        rw [arraySubscr,hindex]
        simp only [hvalue,source_items,if_pos hgrows,if_pos hfree,mRenew,hfails]
      have hstep : step (some o) (.sliceAssign index value e)=.ok (some o,.raised) := by
        rw [step,onArray,hsubscr]
      rw [faithful_iff_of_ok hstep]
      refine iff_of_true ⟨h,rfl⟩ (.inr ⟨by omega,fun hplace => ?_⟩)
      rw [hfails] at hplace
      cases hplace
    case neg =>
      have hn : o.items.length≤ o.len+((src.items o.len o.contents).length-(stop-start)) := by omega
      have hsubscr : arraySubscr o index value e=growSlice o (resize o.items
              (o.len+((src.items o.len o.contents).length-(stop-start))) e.renewal.garbage)
            0 start stop (src.items o.len o.contents).length
            fun mem => src.items o.len (oldItems o.items mem e.renewal) := by
        rw [arraySubscr,hindex]
        simp only [hvalue,source_items,if_pos hgrows,if_pos hfree,mRenew_ok _ _ hfails]
      have hnew := length_resize hn e.renewal.garbage
      obtain ⟨p,mem,hgrow,hplen,hpfree,hpitems,hcontents,hmlen,hmem⟩ := @growSlice_ok o
        (resize o.items (o.len+((src.items o.len o.contents).length-(stop-start)))
          e.renewal.garbage) 0 start stop (src.items o.len o.contents).length
        (fun mem => src.items o.len (oldItems o.items mem e.renewal))
        (take_resize hn (show o.len≤o.items.length by omega) _) hcl hbounds (Nat.le_of_lt hgrows)
        (Nat.le_of_eq hnew.symm) (by
          intro mem hmem
          refine hlens _ ?_
          rw [oldItems]
          cases e.renewal.result <;> dsimp only <;> omega)
      have hstep : step (some o) (.sliceAssign index value e)=.ok (some p,.returned) := by
        rw [step,onArray,hsubscr,hgrow]
      have hcounted : Counted p := by
        rw [Counted]
        omega
      rw [faithful_iff_of_ok hstep,hcontents,hexpected,splice_inj]
      have hread : src.items o.len mem=
          afterMove o.contents start stop (src.items o.len o.contents).length src := by
        rw [afterMove,hcl,←items_take src o.len mem,hmem,items_take]
      rw [and_iff_right hcounted,oldItems]
      cases hresult : e.renewal.result with
      | fails => exact absurd hresult hfails
      | inPlace =>
        rw [hread]
        constructor
        · exact fun hsame => .inr ⟨by omega,fun _ => hsame⟩
        · rintro (⟨hlen,_⟩ | ⟨_,hsame⟩)
          · omega
          · exact hsame hresult
      | moves =>
        dsimp only
        rw [source_items]
        refine iff_of_true rfl (.inr ⟨by omega,fun hplace => ?_⟩)
        rw [hresult] at hplace
        cases hplace

/-- A slice assignment is faithful as described. -/
theorem slice_faithful_iff (h : Counted o) (index : SliceIndex) (value : Value)
    (e : SliceOutcome) : Faithful (some o) (.sliceAssign index value e)↔
      Sound (some o) (.sliceAssign index value e) := by
  have hraise : arraySubscr o index value e=.ok (o,.raised) →
      Faithful (some o) (.sliceAssign index value e) := by
    intro hsubscr
    have hstep : step (some o) (.sliceAssign index value e)=.ok (some o,.raised) := by
      rw [step,onArray,hsubscr]
    exact (faithful_iff_of_ok hstep).mpr ⟨h,rfl⟩
  cases hindex : mpSeqGetFastSliceIndexes o.len index with
  | none =>
    refine iff_of_true (hraise (by rw [arraySubscr,hindex])) ?_
    intro p start stop src hp hsome
    cases hp
    rw [hindex] at hsome
    cases hsome
  | some indexes =>
    obtain ⟨start,stop⟩ := indexes
    cases hvalue : value.source o with
    | none =>
      refine iff_of_true (hraise ?_) ?_
      · rw [arraySubscr,hindex]
        simp only [hvalue]
      · intro p start stop src hp _ hsome
        cases hp
        rw [hvalue] at hsome
        cases hsome
    | some src =>
      have hbounds : start ≤ stop∧stop≤o.len := by
        have heq := fastSliceIndexes_eq hindex
        have hle := sliceBounds_le o.len index
        rw [←heq] at hle
        exact hle
      have hfaithful : Faithful (some o) (.sliceAssign index value e)↔
          Assigns o start stop src e := by
        by_cases hgrows : stop-start < (src.items o.len o.contents).length
        case pos => exact grow_faithful_iff h hindex hvalue hbounds hgrows
        case neg => exact keep_faithful_iff h hindex hvalue hbounds hgrows
      rw [hfaithful]
      constructor
      · intro hassigns p start' stop' src' hp hindex' hvalue'
        cases hp
        rw [hindex] at hindex'
        cases hindex'
        rw [hvalue] at hvalue'
        cases hvalue'
        exact hassigns
      · exact fun hsound => hsound o start stop src rfl hindex hvalue

/-! ## Construction -/

theorem constructLoop_zero (raises : Bool) (renewals : ℕ→Renewal) (array : ArrayObj) (i : ℕ)
    (object : Option Item) (objects : List (Option Item)) :
    constructLoop 0 raises renewals array i (object::objects)=
      match arrayAppend array object (renewals i) with
      | .error e => .error e
      | .ok (array,.raised) => .ok (array,.raised)
      | .ok (array,.returned) => constructLoop 0 raises renewals array (i+1) objects :=
  rfl

theorem constructLoop_pos (hlen : len≠0) (raises : Bool) (renewals : ℕ→Renewal)
    (array : ArrayObj) (i : ℕ) (object : Option Item) (objects : List (Option Item)) :
    constructLoop len raises renewals array i (object::objects)=
      match object with
      | none => .ok (array,.raised)
      | some item =>
        match store array.items i [item] with
        | none => .error .items
        | some items =>
          constructLoop len raises renewals {array with items := items} (i+1) objects :=
  if_neg hlen

/-- Items that are appended in a construction, which may end with an exception. -/
theorem appendLoop (raises : Bool) (renewals : ℕ→Renewal) (objects : List (Option Item)) :
    ∀ (array : ArrayObj) (i : ℕ),Counted array →
      ∃ array' out,constructLoop 0 raises renewals array i objects=.ok (array',out)∧
        (out=.returned → Counted array'∧array'.contents=array.contents++objects.filterMap id) := by
  induction objects with
  | nil =>
    intro array i h
    refine ⟨array,_,rfl,fun _ => ⟨h,?_⟩⟩
    rw [filterMap_nil,append_nil]
  | cons object objects ih =>
    intro array i h
    by_cases hr : array.free=0 → (renewals i).result≠.fails
    case neg =>
      have hfree : array.free=0 := by
        by_contra hne
        exact hr fun hzero => absurd hzero hne
      have hfails : (renewals i).result=.fails := by
        by_contra hne
        exact hr fun _ => hne
      obtain ⟨p,hroom,_⟩ := makeRoom_failed h hfree hfails
      refine ⟨p,.raised,?_,fun hout => by cases hout⟩
      rw [constructLoop_zero,arrayAppend,hroom]
    case pos =>
      obtain ⟨p,hcounted,_,happend⟩ := arrayAppend_ok h hr object
      cases object with
      | none =>
        refine ⟨p,.raised,?_,fun hout => by cases hout⟩
        rw [constructLoop_zero,happend.1]
      | some item =>
        obtain ⟨array',out,hloop,hdone⟩ := ih p (i+1) hcounted
        refine ⟨array',out,?_,fun hout => ⟨(hdone hout).1,?_⟩⟩
        · rw [constructLoop_zero,happend.1]
          exact hloop
        · rw [(hdone hout).2,happend.2,append_assoc]
          rfl

/-- Items that are stored in a construction with room for them. -/
theorem storeLoop_ok (hlen : len≠0) (raises : Bool) (renewals : ℕ→Renewal)
    (objects : List (Option Item)) : ∀ (array : ArrayObj) (i : ℕ),
      i+(stored objects).length≤array.items.length →
      ∃ items,constructLoop len raises renewals array i objects= .ok ({array with items := items},
            if stored objects=objects∧raises=false then .returned else .raised)∧
        items.length=array.items.length∧
        (stored objects=objects → items.take (i+objects.length)=
          array.items.take i++objects.filterMap id) := by
  induction objects with
  | nil =>
    intro array i _
    refine ⟨array.items,?_,rfl,fun _ => (append_nil _).symm⟩
    rw [constructLoop.eq_def]
    cases raises <;> rfl
  | cons object objects ih =>
    intro array i h
    cases object with
    | none =>
      refine ⟨array.items,?_,rfl,fun hall => by cases hall⟩
      rw [constructLoop_pos hlen]
      rfl
    | some item =>
      have hstored : stored (some item::objects)=some item::stored objects := rfl
      rw [hstored,length_cons] at h
      have hfits : i+[item].length≤array.items.length := by
        rw [length_singleton]
        omega
      obtain ⟨items,hloop,hlength,hitems⟩ := ih {array with
        items := array.items.take i++[item]++array.items.drop (i+[item].length)} (i+1) (by
          show _≤(array.items.take i++[item]++array.items.drop (i+[item].length)).length
          rw [length_splice hfits]
          omega)
      have hiff : stored (some item::objects)=some item::objects↔stored objects=objects := by
        rw [hstored,List.cons.injEq]
        exact and_iff_right rfl
      refine ⟨items,?_,hlength.trans (length_splice hfits),?_⟩
      · rw [constructLoop_pos hlen]
        simp only [store_ok hfits,hiff]
        exact hloop
      · intro hall
        have hrest := hitems (hiff.mp hall)
        have hfirst : (array.items.take i++[item]++array.items.drop (i+[item].length)).take
            (i+1)=array.items.take i++[item] := take_splice hfits
        rw [length_cons,Nat.add_comm objects.length,←Nat.add_assoc,hrest,hfirst,append_assoc]
        rfl

/-- Items that are stored in a construction without room for them. -/
theorem storeLoop_fault (hlen : len≠0) (raises : Bool) (renewals : ℕ→Renewal)
    (objects : List (Option Item)) : ∀ (array : ArrayObj) (i : ℕ),
      i≤array.items.length → array.items.length < i+(stored objects).length →
      constructLoop len raises renewals array i objects=.error .items := by
  induction objects with
  | nil =>
    intro array i hi h
    have hnone : (stored []).length=0 := rfl
    omega
  | cons object objects ih =>
    intro array i hi h
    cases object with
    | none =>
      have hnone : (stored (none::objects)).length=0 := rfl
      omega
    | some item =>
      have hstored : (stored (some item::objects)).length=(stored objects).length+1 := rfl
      rw [constructLoop_pos hlen]
      by_cases hroom : i+1≤array.items.length
      case neg =>
        have hfault : store array.items i [item]=none :=
          store_fault (cons_ne_nil _ _) (Nat.lt_of_not_le hroom)
        simp only [hfault]
      case pos =>
        have hfits : i+[item].length≤array.items.length := hroom
        have hlength := length_splice hfits
        simp only [store_ok hfits]
        refine ih _ (i+1) ?_ ?_
        · rw [hlength]
          exact hroom
        · rw [hlength]
          omega

variable {s : Option ArrayObj} {sz : ℕ} {init : Initializer} {e : ConstructOutcome}

/-- The variable keeps its array. -/
def Kept (s : Option ArrayObj) : Prop := ∀ o,s=some o → Counted o

theorem construct_raised (h : Kept s) (hc : construct sz init e=.ok none) :
    Faithful s (.construct sz init e) := by
  refine ⟨s,.raised,?_,h,rfl⟩
  rw [step,hc]

theorem construct_returned (hc : construct sz init e=.ok (some o)) :
    Faithful s (.construct sz init e)↔Counted o∧o.contents=initial sz init := by
  have hstep : step s (.construct sz init e)=.ok (some o,.returned) := by rw [step,hc]
  exact faithful_iff_of_ok hstep

theorem arrayNew_ok {a : Allocation} (ha : ¬(a.fails=true∧sz*n%sizeT≠0)) :
    arrayNew sz n a=some ⟨sz,0,n,(List.range (sz*n%sizeT/sz)).map a.garbage⟩ :=
  if_neg ha

theorem filled_ok (hsz : 0 < sz) (hn : sz*n < sizeT) (hitems : items.length=n) (a : Allocation) :
    (arrayNew sz n a=none∨
      ∃ o,arrayNew sz n a=some o∧store o.items 0 items=some items∧o.len=n∧o.free=0) := by
  by_cases ha : a.fails=true∧sz*n%sizeT≠0
  case pos => exact .inl (if_pos ha)
  case neg =>
    refine .inr ⟨_,arrayNew_ok ha,?_,rfl,rfl⟩
    have hroom : ((List.range (sz*n%sizeT/sz)).map a.garbage).length=n := by
      rw [length_map,length_range,Nat.mod_eq_of_lt hn,Nat.mul_div_cancel_left _ hsz]
    have hstore := store_ok (show 0+items.length≤
      ((List.range (sz*n%sizeT/sz)).map a.garbage).length by omega)
    rw [hstore,take_zero,nil_append,drop_eq_nil_of_le (by omega),append_nil]

/-- A construction from a buffer or a length is faithful. -/
theorem filled_faithful (h : Kept s) (hitems : items.length=n)
    (hinitial : initial sz init=items) {size : ℕ} (hsize : 0 < size) (hn : size*n < sizeT)
    (hc : construct sz init e=
      match arrayNew size n e.allocation with
      | none => .ok none
      | some o =>
        match store o.items 0 items with
        | none => .error .items
        | some items => .ok (some {o with items := items})) :
    Faithful s (.construct sz init e) := by
  cases filled_ok hsize hn hitems e.allocation with
  | inl hnone =>
    rw [hnone] at hc
    exact construct_raised h hc
  | inr hsome =>
    obtain ⟨o,ho,hstore,hlen,hfree⟩ := hsome
    rw [ho] at hc
    simp only [hstore] at hc
    refine (construct_returned hc).mpr ⟨?_,?_⟩
    · rw [Counted]
      show o.len+o.free=items.length
      omega
    · show items.take o.len=_
      rw [hlen,←hitems,take_length,hinitial]

theorem arrayNew_zero (sz : ℕ) (a : Allocation) : arrayNew sz 0 a=some ⟨sz,0,0,[]⟩ := by
  have hbytes : sz*0%sizeT=0 := zero_mod _
  have hmemory : sz*0%sizeT/sz=0 := by rw [hbytes,Nat.zero_div]
  rw [arrayNew_ok fun ha => ha.2 hbytes,hmemory]
  rfl

/-- A construction from the items of an iterable that tells no length is faithful. -/
theorem appended_faithful (h : Kept s) {objects : List (Option Item)} {raises : Bool}
    (hinitial : initial sz init=objects.filterMap id)
    (hc : construct sz init e=
      match arrayNew sz 0 e.allocation with
      | none => .ok none
      | some array =>
        match constructLoop 0 raises e.renewals array 0 objects with
        | .error e => .error e
        | .ok (_,.raised) => .ok none
        | .ok (array,.returned) => .ok (some array)) :
    Faithful s (.construct sz init e) := by
  obtain ⟨array,out,hloop,hdone⟩ := appendLoop raises e.renewals objects ⟨sz,0,0,[]⟩ 0 rfl
  rw [arrayNew_zero] at hc
  simp only [hloop] at hc
  cases out with
  | raised => exact construct_raised h hc
  | returned =>
    obtain ⟨hcounted,hcontents⟩ := hdone rfl
    exact (construct_returned hc).mpr ⟨hcounted,hcontents.trans hinitial.symm⟩

/-- Objects that can all be stored are as many as their items. -/
theorem length_filterMap {objects : List (Option Item)} (h : stored objects=objects) :
    (objects.filterMap id).length=objects.length := by
  induction objects with
  | nil => rfl
  | cons object objects ih =>
    cases object with
    | none => cases h
    | some item =>
      have hrest : stored objects=objects := (List.cons.inj h).2
      have hitems : (some item::objects).filterMap id=item::objects.filterMap id := rfl
      rw [hitems,length_cons,length_cons,ih hrest]

/-- A construction from an iterable that tells a length. -/
theorem told_faithful_iff (h : Kept s) (hsz : 0 < sz) (hlen : 0 < len)
    (objects : List (Option Item)) (raises : Bool) :
    Faithful s (.construct sz (.iterable (some len) objects raises) e)↔
      TellsLength sz len objects raises e.allocation := by
  have hconstruct : construct sz (.iterable (some len) objects raises) e=
      match arrayNew sz len e.allocation with
      | none => .ok none
      | some array =>
        match constructLoop len raises e.renewals array 0 objects with
        | .error e => .error e
        | .ok (_,.raised) => .ok none
        | .ok (array,.returned) => .ok (some array) := if_neg (Nat.ne_of_gt hsz)
  have hlen' : len≠0 := Nat.ne_of_gt hlen
  rw [TellsLength]
  by_cases ha : e.allocation.fails=true∧sz*len%sizeT≠0
  case pos =>
    rw [show arrayNew sz len e.allocation=none from if_pos ha] at hconstruct
    exact iff_of_true (construct_raised h hconstruct) (.inl ha)
  case neg =>
    rw [arrayNew_ok ha] at hconstruct
    rw [or_iff_right ha]
    have hroom : ((List.range (sz*len%sizeT/sz)).map e.allocation.garbage).length=
        sz*len%sizeT/sz := by
      rw [length_map,length_range]
    have hatMost : sz*len%sizeT/sz≤len := by
      refine Nat.div_le_of_le_mul ?_
      exact Nat.mod_le _ _
    by_cases hfits : (stored objects).length ≤ sz*len%sizeT/sz
    case neg =>
      have hfault := storeLoop_fault hlen' raises e.renewals objects
        ⟨sz,0,len,(List.range (sz*len%sizeT/sz)).map e.allocation.garbage⟩ 0 (zero_le _)
        (by
          show ((List.range (sz*len%sizeT/sz)).map e.allocation.garbage).length < _
          omega)
      simp only [hfault] at hconstruct
      refine iff_of_false ?_ fun htells => hfits htells.1
      rintro ⟨t,out,hstep,_⟩
      rw [step,hconstruct] at hstep
      cases hstep
    case pos =>
      obtain ⟨items,hloop,hlength,hitems⟩ := storeLoop_ok hlen' raises e.renewals objects
        ⟨sz,0,len,(List.range (sz*len%sizeT/sz)).map e.allocation.garbage⟩ 0
        (by
          show _≤((List.range (sz*len%sizeT/sz)).map e.allocation.garbage).length
          omega)
      replace hlength : items.length=sz*len%sizeT/sz := hlength.trans hroom
      simp only [hloop] at hconstruct
      rw [and_iff_right hfits]
      by_cases hends : stored objects=objects∧raises=false
      case neg =>
        rw [if_neg hends] at hconstruct
        refine iff_of_true (construct_raised h hconstruct) ?_
        exact fun hall hraises => absurd ⟨hall,hraises⟩ hends
      case pos =>
        rw [if_pos hends] at hconstruct
        have hstored : (stored objects).length=objects.length := by rw [hends.1]
        rw [construct_returned hconstruct]
        constructor
        · rintro ⟨hcounted,hcontents⟩ _ _
          have hcl := contents_length hcounted
          have hinitial : initial sz (.iterable (some len) objects raises)=
              objects.filterMap id := rfl
          rw [hcontents,hinitial,length_filterMap hends.1] at hcl
          exact hcl
        · intro htells
          have hsame : objects.length=len := htells hends.1 hends.2
          constructor
          · rw [Counted]
            show len+0=items.length
            omega
          · have hall := hitems hends.1
            rw [take_zero,nil_append,Nat.zero_add,hsame] at hall
            exact hall

theorem length_itemsOf (itemSz : ℕ) (data : List UInt8) :
    (itemsOf itemSz data).length=data.length/itemSz := by
  rw [itemsOf,length_map,length_range]

/-- A construction is faithful as described. -/
theorem construct_faithful_iff (h : Kept s) (sz : ℕ) (init : Initializer) (e : ConstructOutcome) :
    Faithful s (.construct sz init e)↔Sound s (.construct sz init e) := by
  rcases Nat.eq_zero_or_pos sz with hzero | hsz
  case inl =>
    have hconstruct : construct sz init e=.ok none := if_pos hzero
    refine iff_of_true (construct_raised h hconstruct) ?_
    cases init with
    | iterable lenIn objects raises =>
      cases lenIn with
      | none => trivial
      | some len => exact fun hpos => absurd hzero (Nat.ne_of_gt hpos)
    | empty => trivial
    | raw data short => trivial
    | blank n short => trivial
  case inr =>
    have hne : sz≠0 := Nat.ne_of_gt hsz
    cases init with
    | empty =>
      have hconstruct : construct sz .empty e=.ok (some ⟨sz,0,0,[]⟩) := by
        rw [construct,if_neg hne]
        exact congrArg Except.ok (arrayNew_zero sz e.allocation)
      exact iff_of_true ((construct_returned hconstruct).mpr ⟨rfl,rfl⟩) trivial
    | raw data short =>
      refine iff_of_true ?_ trivial
      have hsize : sz*(data.length/sz) < sizeT :=
        Nat.lt_of_le_of_lt (mul_div_le _ _) short
      exact filled_faithful h (length_itemsOf sz data) rfl hsz hsize (if_neg hne)
    | blank n short =>
      refine iff_of_true ?_ trivial
      have hsize : 1*n < sizeT := Nat.lt_of_le_of_lt (Nat.le_of_eq (Nat.one_mul n)) short
      exact filled_faithful h length_replicate rfl Nat.one_pos hsize (if_neg hne)
    | iterable lenIn objects raises =>
      have hconstruct : lenIn.getD 0=0 →
          Faithful s (.construct sz (.iterable lenIn objects raises) e) := by
        intro hnone
        have hform : construct sz (.iterable lenIn objects raises) e=
            match arrayNew sz (lenIn.getD 0) e.allocation with
            | none => .ok none
            | some array =>
              match constructLoop (lenIn.getD 0) raises e.renewals array 0 objects with
              | .error e => .error e
              | .ok (_,.raised) => .ok none
              | .ok (array,.returned) => .ok (some array) := if_neg hne
        rw [hnone] at hform
        exact appended_faithful h rfl hform
      cases lenIn with
      | none => exact iff_of_true (hconstruct rfl) trivial
      | some len =>
        rcases Nat.eq_zero_or_pos len with hnone | hlen
        case inl =>
          refine iff_of_true (hconstruct hnone) ?_
          exact fun _ hpos => absurd hnone (Nat.ne_of_gt hpos)
        case inr =>
          rw [told_faithful_iff h hsz hlen]
          exact ⟨fun htells _ _ => htells,fun hsound => hsound hsz hlen⟩

/-! ## Runs -/

/-- A step is faithful as described. -/
theorem step_faithful_iff (h : Kept s) (op : Op) : Faithful s op↔Sound s op := by
  have hnone : ∀ op,step none op=.ok (none,.raised) → Faithful none op :=
    fun op hstep => ⟨none,.raised,hstep,fun o ho => (by cases ho),rfl⟩
  cases op with
  | construct sz init e => exact construct_faithful_iff h sz init e
  | append arg r =>
    cases s with
    | none => exact iff_of_true (hnone _ rfl) fun o ho => (by cases ho)
    | some o =>
      rw [append_faithful_iff (h o rfl)]
      constructor
      · intro hr p hp
        cases hp
        exact hr
      · exact fun hsound => hsound o rfl
  | extend arg r =>
    cases s with
    | none => exact iff_of_true (hnone _ rfl) trivial
    | some o => exact iff_of_true (extend_faithful (h o rfl) arg r) trivial
  | sliceAssign index value e =>
    cases s with
    | none => exact iff_of_true (hnone _ rfl) fun o start stop src ho => (by cases ho)
    | some o => exact slice_faithful_iff (h o rfl) index value e

/-- `b=bytearray(b"a")`, `b.append(98)` and `b[2:2]=b"cdefghi"`, which fills the room
that the append made, and `b.append(106)`. Every reallocation copies the items. -/
def overrun : List Op :=
  let moves : Renewal := ⟨.moves,fun _ => [0]⟩
  [.construct 1 (.raw [97] (by decide)) ⟨⟨false,fun _ => [0]⟩,fun _ => moves⟩,
    .append (some [98]) moves,
    .sliceAssign ⟨some 2,some 2,none⟩ (.bytes [99,100,101,102,103,104,105]) ⟨moves,fun _ => [0]⟩,
    .append (some [106]) moves]

end MicroPython.ArrayContents
