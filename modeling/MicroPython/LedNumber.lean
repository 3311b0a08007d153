import Mathlib.Data.Int.Notation
import Mathlib.Data.List.Basic

/-!
# Numbers on the LED matrix

A number is drawn from left to right into the sixteen columns of the display: three columns
for each figure and an empty one behind it, which is that of the point when a point follows.
-/

namespace MicroPython.LedNumber

open Nat
open List (length_singleton length_cons append_assoc length_append append_nil mem_cons_self)

/-- `LED_BUFFER_SIZE` -/
def ledBufferSize : ℕ := 16

/-- `LEDMATRIX_COLUMN_NUM` -/
def ledmatrixColumnNum : ℕ := 16

/-- `LED_MATRIX_NUMBERFONT_COLUMN` -/
def ledMatrixNumberfontColumn : ℕ := 3

/-- `led_matrix_numberfont_typedef` -/
structure Numberfont where
  /-- `character[0]` -/
  character : UInt8
  /-- `data`, the columns. -/
  data : Vector UInt8 ledMatrixNumberfontColumn

/-- `codey_number_font`, with `LED_MATRIX_NUMBER_TABLE_LEN` entries. -/
def codeyNumberFont : List Numberfont := [⟨0x30,#v[0x3e,0x22,0x3e]⟩,⟨0x31,#v[0x00,0x3e,0x00]⟩,
  ⟨0x32,#v[0x3a,0x2a,0x2e]⟩,
  ⟨0x33,#v[0x2a,0x2a,0x3e]⟩,
  ⟨0x34,#v[0x0e,0x08,0x3e]⟩,
  ⟨0x35,#v[0x2e,0x2a,0x3a]⟩,
  ⟨0x36,#v[0x3e,0x2a,0x3a]⟩,
  ⟨0x37,#v[0x02,0x02,0x3e]⟩,
  ⟨0x38,#v[0x3e,0x2a,0x3e]⟩,
  ⟨0x39,#v[0x2e,0x2a,0x3e]⟩,
  ⟨0x3a,#v[0x00,0x22,0x00]⟩,
  ⟨0x2e,#v[0x00,0x20,0x00]⟩,
  ⟨0x2d,#v[0x08,0x08,0x08]⟩,
  ⟨0x2b,#v[0x00,0x00,0x00]⟩]

/-- The character `.`. -/
def point : UInt8 := 0x2e

/-- A column outside of `cur_matrix_data`. -/
inductive Fault where
  | curMatrixData
  deriving DecidableEq

/-- A column written. -/
def writeColumn (buffer : List UInt8) (i : ℤ) (v : UInt8) : Except Fault (List UInt8) :=
  if 0 ≤ i∧i < ledBufferSize then .ok (buffer.set i.toNat v) else .error .curMatrixData

/-- `codey_lematrix_data_buffer_add_t` from column `i` of the data on: the buffer, and whether
it is over. -/
def dataBufferAdd (columeIndex : ℤ) : ℕ→List UInt8→List UInt8→Except Fault (List UInt8×Bool)
  | _,buffer,[] => .ok (buffer,false)
  | i,buffer,v::data =>
    if columeIndex+i < 0 then dataBufferAdd columeIndex (i+1) buffer data
    else if columeIndex+i≥ledBufferSize then .ok (buffer,true)
    else do
      let buffer ← writeColumn buffer (columeIndex+i) v
      dataBufferAdd columeIndex (i+1) buffer data

/-- The entry of the font for a character. -/
def fontOf (c : UInt8) : Option Numberfont := codeyNumberFont.find? fun font => font.character==c

/-- The loop of `codey_ledmatrix_show_number_t` over the characters: the buffer, and whether it
is shown. -/
def showLoop : UInt8→List UInt8→List UInt8→Except Fault (List UInt8×Bool)
  | _,buffer,[] => .ok (buffer,true)
  | columnIndex,buffer,c::data =>
    match fontOf c with
    | none => .ok (buffer,false)
    | some font =>
      if c=point then
        if columnIndex.toNat≥ledmatrixColumnNum-ledMatrixNumberfontColumn then .ok (buffer,true)
        else do
          let columnIndex := columnIndex-1
          let (buffer,isOver) ← dataBufferAdd columnIndex.toNat 0 buffer [font.data[1]]
          if isOver then .ok (buffer,true) else showLoop (columnIndex+(1+1)) buffer data
      else do
        let (buffer,isOver) ← dataBufferAdd columnIndex.toNat 0 buffer font.data.toList
        if isOver then .ok (buffer,true) else showLoop (columnIndex+(3+1)) buffer data

/-- `codey_ledmatrix_show_number_t`, from a buffer that has been cleared on. -/
def showNumber (data : List UInt8) : Except Fault (List UInt8×Bool) :=
  showLoop 0 (List.replicate ledBufferSize 0) data

/-- A character of the font that is not the point: a digit or a sign (or a colon). -/
def Figure (c : UInt8) : Prop := (fontOf c).isSome∧c≠point

instance (c : UInt8) : Decidable (Figure c) := inferInstanceAs (Decidable (_∧_))

/-- The columns of a figure. -/
def glyph (c : UInt8) : List UInt8 := ((fontOf c).map fun font => font.data.toList).getD []

/-- The column of a point. -/
def pointColumn : UInt8 := 0x20

/-- Figures next to each other, each with an empty column behind it. -/
def layout (figures : List UInt8) : List UInt8 := figures.flatMap fun c => glyph c++[0]

/-- The display with some columns from the left on, as far as there is room for them. -/
def display (columns : List UInt8) : List UInt8 :=
  (columns++List.replicate ledBufferSize 0).take ledBufferSize

section Columns

variable {l : List UInt8}

variable (columeIndex : ℤ) (data : List UInt8)

/-- The data are put into the display or it is over; no other column is written. -/
theorem dataBufferAdd_ok : ∀ (i : ℕ) (buffer : List UInt8),
    ∃ r,dataBufferAdd columeIndex i buffer data=.ok r := by
  induction data with
  | nil => exact fun _ buffer => ⟨(buffer,false),rfl⟩
  | cons v data ih =>
    intro i buffer
    rw [dataBufferAdd]
    split
    case isTrue => exact ih (i+1) buffer
    case isFalse hpos =>
      split
      case isTrue => exact ⟨_,rfl⟩
      case isFalse hlt =>
        rw [writeColumn,if_pos ⟨Int.not_lt.mp hpos,Int.not_le.mp hlt⟩]
        exact ih (i+1) _

/-- Nothing is written outside of the display for any characters. -/
theorem showLoop_ok : ∀ (columnIndex : UInt8) (buffer : List UInt8),
    ∃ r,showLoop columnIndex buffer data=.ok r := by
  induction data with
  | nil => exact fun _ buffer => ⟨(buffer,true),rfl⟩
  | cons c data ih =>
    intro columnIndex buffer
    rw [showLoop]
    cases fontOf c with
    | none => exact ⟨_,rfl⟩
    | some font =>
      dsimp only
      split
      case isTrue =>
        split
        case isTrue => exact ⟨_,rfl⟩
        case isFalse =>
          obtain ⟨⟨drawn,isOver⟩,hadd⟩ :=
            dataBufferAdd_ok (columnIndex-1).toNat [font.data[1]] 0 buffer
          rw [hadd]
          cases isOver with
          | true => exact ⟨_,rfl⟩
          | false => exact ih _ drawn
      case isFalse =>
        obtain ⟨⟨drawn,isOver⟩,hadd⟩ :=
          dataBufferAdd_ok columnIndex.toNat font.data.toList 0 buffer
        rw [hadd]
        cases isOver with
        | true => exact ⟨_,rfl⟩
        | false => exact ih _ drawn

/-- Data for which the display is not over end inside of it. -/
theorem dataBufferAdd_inside {columeIndex : ℕ} :
    ∀ {i : ℕ} {buffer buffer' : List UInt8},data≠[] →
      dataBufferAdd columeIndex i buffer data=.ok (buffer',false) →
        columeIndex+i+data.length≤ledBufferSize := by
  induction data with
  | nil => exact fun h => absurd rfl h
  | cons v data ih =>
    intro i buffer buffer' _ h
    rw [dataBufferAdd,if_neg (by omega)] at h
    split at h
    case isTrue => cases h
    case isFalse hlt =>
      rw [writeColumn,if_pos ⟨by omega,Int.not_le.mp hlt⟩] at h
      cases data with
      | nil =>
        rw [length_singleton]
        omega
      | cons w data =>
        have hrest := ih (List.cons_ne_nil w data) h
        rw [length_cons]
        omega

/-- At most eighteen characters are looked at, so that `n`, which has eight bits, does not go
around for a longer string. -/
theorem showLoop_take : ∀ {k : ℕ} {columnIndex : UInt8}
    {buffer : List UInt8},18 ≤ columnIndex.toNat+k → columnIndex.toNat≤17 →
    showLoop columnIndex buffer data=showLoop columnIndex buffer (data.take k) := by
  induction data with
  | nil =>
    intro k columnIndex buffer _ _
    rw [List.take_nil]
  | cons c data ih =>
    intro k columnIndex buffer hk hcol
    obtain ⟨k,rfl⟩ : ∃ j,k=j+1 := ⟨k-1,by omega⟩
    rw [List.take_succ_cons,showLoop,showLoop]
    cases fontOf c with
    | none => rfl
    | some font =>
      dsimp only
      split
      case isTrue =>
        split
        case isTrue => rfl
        case isFalse hroom =>
          obtain ⟨⟨drawn,isOver⟩,hadd⟩ :=
            dataBufferAdd_ok (columnIndex-1).toNat [font.data[1]] 0 buffer
          rw [hadd]
          cases isOver with
          | true => rfl
          | false =>
            have hinside := dataBufferAdd_inside [font.data[1]] (List.cons_ne_nil _ _) hadd
            change (columnIndex-1).toNat+0+1≤16 at hinside
            have hnext : (columnIndex-1+(1+1)).toNat=(columnIndex-1).toNat+2 := by
              rw [UInt8.toNat_add]
              exact mod_eq_of_lt (by
                change (columnIndex-1).toNat+2 < 256
                omega)
            have hback : columnIndex.toNat≤(columnIndex-1).toNat+1 := by
              rw [UInt8.toNat_sub]
              change columnIndex.toNat≤(256-1+columnIndex.toNat)%256+1
              omega
            exact ih (by rw [hnext]; omega) (by rw [hnext]; omega)
      case isFalse =>
        obtain ⟨⟨drawn,isOver⟩,hadd⟩ :=
          dataBufferAdd_ok columnIndex.toNat font.data.toList 0 buffer
        rw [hadd]
        cases isOver with
        | true => rfl
        | false =>
          have hthree : font.data.toList.length=3 := Vector.length_toList
          have hinside := dataBufferAdd_inside font.data.toList
            (fun hnil => by rw [hnil] at hthree; cases hthree) hadd
          rw [hthree] at hinside
          change columnIndex.toNat+0+3≤16 at hinside
          have hnext : (columnIndex+(3+1)).toNat=columnIndex.toNat+4 := by
            rw [UInt8.toNat_add]
            exact mod_eq_of_lt (by
              change columnIndex.toNat+4 < 256
              omega)
          exact ih (by rw [hnext]; omega) (by rw [hnext]; omega)

/-- What is beyond the display is not seen. -/
theorem display_append (h : ledBufferSize≤l.length) (r : List UInt8) :
    display (l++r)=display l := by
  rw [display,display,append_assoc,List.take_append_of_le_length h,
    List.take_append_of_le_length h]

/-- An empty column at the end is not seen. -/
theorem display_zero (l : List UInt8) : display (l++[0])=display l := by
  have hzeros : [0]++List.replicate ledBufferSize (0 : UInt8)=
      List.replicate ledBufferSize 0++[0] := rfl
  have hlen : ledBufferSize≤(l++List.replicate ledBufferSize (0 : UInt8)).length := by
    rw [length_append,List.length_replicate]
    omega
  rw [display,display,append_assoc,hzeros,←append_assoc,
    List.take_append_of_le_length hlen]

/-- A column behind those of the display. -/
theorem display_set (h : l.length < ledBufferSize) (v : UInt8) :
    (display l).set l.length v=display (l++[v]) := by
  have hset : (l++List.replicate ledBufferSize (0 : UInt8)).set l.length v=
      l++[v]++List.replicate (ledBufferSize-1) 0 := by
    rw [List.set_append_right _ _ (Nat.le_refl _),Nat.sub_self,append_assoc]
    rfl
  have hzeros : List.replicate ledBufferSize (0 : UInt8)=
      List.replicate (ledBufferSize-1) 0++[0] := rfl
  have hlen : ledBufferSize≤(l++[v]++List.replicate (ledBufferSize-1) (0 : UInt8)).length := by
    rw [length_append,length_append,length_singleton,List.length_replicate]
    omega
  rw [display,←List.take_set,hset,display,hzeros,←append_assoc,
    List.take_append_of_le_length hlen]

/-- Data that fit are put behind the columns of the display. -/
theorem dataBufferAdd_fit : ∀ (i : ℕ) (l : List UInt8) (columeIndex : ℤ),
    columeIndex+i=l.length → l.length+data.length≤ledBufferSize →
    dataBufferAdd columeIndex i (display l) data=.ok (display (l++data),false) := by
  induction data with
  | nil =>
    intro i l columeIndex _ _
    rw [append_nil]
    rfl
  | cons v data ih =>
    intro i l columeIndex hcol hlen
    rw [length_cons] at hlen
    have hwrite : writeColumn (display l) (columeIndex+i) v=.ok (display (l++[v])) := by
      rw [writeColumn,hcol,if_pos ⟨Int.natCast_nonneg _,Int.ofNat_lt.mpr (by omega)⟩,
        Int.toNat_natCast,display_set (by omega)]
    have hrest := ih (i+1) (l++[v]) columeIndex
      (by rw [length_append,length_singleton]; omega)
      (by rw [length_append,length_singleton]; omega)
    rw [append_assoc] at hrest
    rw [dataBufferAdd,if_neg (by omega),if_neg (by omega),hwrite]
    exact hrest

theorem dataBufferAdd_over {columeIndex : ℕ} (h : ledBufferSize ≤ columeIndex) (v : UInt8)
    (data buffer : List UInt8) :
    dataBufferAdd columeIndex 0 buffer (v::data)=.ok (buffer,true) := by
  rw [dataBufferAdd,if_neg (by omega),if_pos (by omega)]

end Columns

section Figures

variable {c : UInt8} {l : List UInt8}

/-- The font of a figure has its three columns. -/
theorem fontOf_figure (h : Figure c) :
    ∃ font,fontOf c=some font∧font.data.toList=glyph c∧(glyph c).length=3 := by
  obtain ⟨font,hfont⟩ := Option.isSome_iff_exists.mp h.1
  have hglyph : glyph c=font.data.toList := by
    rw [glyph,hfont]
    rfl
  refine ⟨font,hfont,hglyph.symm,?_⟩
  rw [hglyph,Vector.length_toList]
  rfl

/-- The column after some others. -/
theorem column_add (n k : ℕ) : UInt8.ofNat n+.ofNat k=UInt8.ofNat (n+k) := by
  refine UInt8.toNat_inj.mp ?_
  rw [UInt8.toNat_add]
  change (n%256+k%256)%256=(n+k)%256
  omega

/-- A column as the code keeps it. -/
theorem column_toNat {n : ℕ} (h : n < 256) : (UInt8.ofNat n).toNat=n := mod_eq_of_lt h

/-- A figure that fits is drawn, and an empty column comes behind it. -/
theorem showLoop_figure (h : Figure c) (hlen : l.length≤13) (data : List UInt8) :
    showLoop (.ofNat l.length) (display l) (c::data)=
      showLoop (.ofNat (l++(glyph c++[0])).length) (display (l++(glyph c++[0]))) data := by
  obtain ⟨font,hfont,hdata,hglyph⟩ := fontOf_figure h
  have hadd := dataBufferAdd_fit (glyph c) 0 l (UInt8.ofNat l.length).toNat
    (by rw [column_toNat (by omega)]; omega)
    (by rw [hglyph]; exact Nat.add_le_add_right hlen 3)
  have hnext : UInt8.ofNat l.length+(3+1)=.ofNat (l++(glyph c++[0])).length := by
    rw [length_append,length_append,hglyph]
    exact column_add _ 4
  rw [showLoop,hfont]
  dsimp only
  rw [if_neg h.2,hdata,hadd,←append_assoc,display_zero,append_assoc,←hnext]
  rfl

/-- Behind the display no figure is drawn. -/
theorem showLoop_over (h : Figure c) (hlen : ledBufferSize≤l.length) (hlen' : l.length < 256)
    (buffer data : List UInt8) :
    showLoop (.ofNat l.length) buffer (c::data)=.ok (buffer,true) := by
  obtain ⟨font,hfont,hdata,hglyph⟩ := fontOf_figure h
  rw [showLoop,hfont]
  dsimp only
  rw [if_neg h.2,hdata,column_toNat hlen']
  match glyph c,hglyph with
  | v::rest,_ =>
    rw [dataBufferAdd_over hlen v rest buffer]
    rfl

/-- The columns of figures. -/
theorem length_layout {figures : List UInt8} (h : ∀ c∈figures,Figure c) :
    (layout figures).length=4*figures.length := by
  induction figures with
  | nil => rfl
  | cons c figures ih =>
    obtain ⟨_,_,_,hglyph⟩ := fontOf_figure (h c mem_cons_self)
    have hrest := ih fun c hc => h c (List.mem_cons_of_mem _ hc)
    rw [layout] at hrest
    rw [layout,List.flatMap_cons,length_append,length_append,hglyph,hrest]
    change 3+1+4*figures.length=4*(figures.length+1)
    omega

/-- Figures that fit are drawn one after the other. -/
theorem showLoop_figures (figures : List UInt8) : ∀ l : List UInt8,
    (∀ c∈figures,Figure c) → l.length+4*figures.length≤17 → ∀ data,
    showLoop (.ofNat l.length) (display l) (figures++data)=
      showLoop (.ofNat (l++layout figures).length) (display (l++layout figures)) data := by
  induction figures with
  | nil =>
    intro l _ _ data
    rw [layout,List.flatMap_nil,append_nil]
    rfl
  | cons c figures ih =>
    intro l h hlen data
    rw [length_cons] at hlen
    have hc := h c mem_cons_self
    obtain ⟨_,_,_,hglyph⟩ := fontOf_figure hc
    have hrest := ih (l++(glyph c++[0])) (fun c hc => h c (List.mem_cons_of_mem _ hc))
      (by rw [length_append,length_append,hglyph,length_singleton]; omega) data
    rw [List.cons_append,showLoop_figure hc (by omega),hrest,append_assoc]
    rfl

/-- Figures are drawn as far as there is room, always as a whole. -/
theorem showLoop_all (figures : List UInt8) : ∀ l : List UInt8,
    (∀ c∈figures,Figure c) → l.length%4≤1 → l.length≤17 →
    showLoop (.ofNat l.length) (display l) figures=.ok (display (l++layout figures),true) := by
  induction figures with
  | nil =>
    intro l _ _ _
    rw [layout,List.flatMap_nil,append_nil]
    rfl
  | cons c figures ih =>
    intro l h hmod hlen
    have hc := h c mem_cons_self
    obtain ⟨_,_,_,hglyph⟩ := fontOf_figure hc
    rcases Nat.lt_or_ge l.length ledBufferSize with hlt | hge
    · have hfit : l.length≤13 := by
        change l.length < 16 at hlt
        omega
      have hlength : (l++(glyph c++[0])).length=l.length+4 := by
        rw [length_append,length_append,hglyph,length_singleton]
      rw [showLoop_figure hc hfit,ih (l++(glyph c++[0]))
        (fun c hc => h c (List.mem_cons_of_mem _ hc)) (by omega) (by omega),append_assoc]
      rfl
    · rw [showLoop_over hc hge (by omega),display_append hge]

/-- A point takes the place of the empty column when three more columns fit behind it. -/
theorem showLoop_point (hlen : l.length+1 < 13) (data : List UInt8) :
    showLoop (.ofNat (l++[0]).length) (display (l++[0])) (point::data)=
      showLoop (.ofNat (l++[pointColumn,0]).length) (display (l++[pointColumn,0])) data := by
  have hcol : UInt8.ofNat (l++[0]).length-1=.ofNat l.length := by
    rw [length_append,length_singleton,←column_add]
    exact UInt8.add_sub_cancel _ _
  have hadd := dataBufferAdd_fit [pointColumn] 0 l (UInt8.ofNat l.length).toNat
    (by rw [column_toNat (by omega)]; omega)
    (by rw [length_singleton]; change _≤16; omega)
  have hnext : UInt8.ofNat l.length+(1+1)=.ofNat (l++[pointColumn,0]).length := by
    rw [length_append]
    exact column_add _ 2
  have hfont : fontOf point=some ⟨0x2e,#v[0x00,0x20,0x00]⟩ := rfl
  have hroom : ¬(UInt8.ofNat (l++[0]).length).toNat≥
      ledmatrixColumnNum-ledMatrixNumberfontColumn := by
    rw [length_append,length_singleton,column_toNat (by omega)]
    change ¬_≥13
    omega
  have htwo : l++[pointColumn,0]=l++[pointColumn]++[0] := by
    rw [append_assoc]
    rfl
  rw [showLoop,hfont]
  dsimp only
  rw [if_pos rfl,if_neg hroom,hcol,display_zero]
  change (dataBufferAdd (UInt8.ofNat l.length).toNat 0 (display l) [pointColumn] >>= _)=_
  rw [hadd,←hnext,htwo,display_zero]
  rfl

/-- Otherwise the drawing ends before it. -/
theorem showLoop_point_over (hlen : 13≤l.length) (hlen' : l.length < 256)
    (buffer data : List UInt8) :
    showLoop (.ofNat l.length) buffer (point::data)=.ok (buffer,true) := by
  have hfont : fontOf point=some ⟨0x2e,#v[0x00,0x20,0x00]⟩ := rfl
  rw [showLoop,hfont]
  dsimp only
  have hfull : l.length≥ledmatrixColumnNum-ledMatrixNumberfontColumn := hlen
  rw [if_pos rfl,column_toNat hlen',if_pos hfull]

end Figures

section Number

/-- The columns of figures in a row. -/
theorem layout_append (first second : List UInt8) :
    layout (first++second)=layout first++layout second := List.flatMap_append

/-- The columns of a last figure. -/
theorem layout_concat (before : List UInt8) (d : UInt8) :
    layout (before++[d])=layout before++glyph d++[0] := by
  rw [layout_append,append_assoc]
  exact congrArg (layout before++·) (append_nil _)

theorem display_nil : display []=List.replicate ledBufferSize 0 := rfl

theorem showNumber_figures {figures : List UInt8} (h : ∀ c∈figures,Figure c) :
    showNumber figures=.ok (display (layout figures),true) :=
  showLoop_all figures [] h (by decide) (by decide)

/-- A point that comes behind at most three figures is in the column behind the last of them,
and the other figures come after it. -/
theorem showNumber_point {before fraction : List UInt8} {d : UInt8}
    (hbefore : ∀ c∈before++[d],Figure c) (hfraction : ∀ c∈fraction,Figure c)
    (hlen : before.length≤2) :
    showNumber (before++[d]++point::fraction)=
      .ok (display (layout before++glyph d++pointColumn::0::layout fraction),true) := by
  obtain ⟨l,hl⟩ : ∃ l,layout before++glyph d=l := ⟨_,rfl⟩
  have hlayout : layout (before++[d])=l++[0] := by rw [layout_concat,hl]
  have hlength : l.length+1=4*(before.length+1) := by
    have hsum := length_layout hbefore
    rw [hlayout,length_append,length_append] at hsum
    exact hsum
  have hfigures := showLoop_figures (before++[d]) [] hbefore
    (by rw [length_append]; change 0+4*(before.length+1)≤17; omega) (point::fraction)
  rw [List.nil_append,hlayout] at hfigures
  have hrest := showLoop_all fraction (l++[pointColumn,0]) hfraction
    (by rw [length_append]; change (l.length+2)%4≤1; omega)
    (by rw [length_append]; change l.length+2≤17; omega)
  rw [append_assoc] at hrest
  rw [hl]
  exact hfigures.trans ((showLoop_point (by omega) fraction).trans hrest)

/-- Behind more figures no point is drawn, and nothing that comes after it. -/
theorem showNumber_point_over {before fraction : List UInt8} {d : UInt8}
    (hbefore : ∀ c∈before++[d],Figure c) (hlen : 2 < before.length) :
    showNumber (before++[d]++point::fraction)= .ok (display (layout before++glyph d),true) := by
  obtain ⟨figures,hwhole⟩ : ∃ figures,before++[d]=figures := ⟨_,rfl⟩
  have hcount : 4≤figures.length := by
    rw [←hwhole,length_append,length_singleton]
    omega
  rw [hwhole] at hbefore
  have hfirst : ∀ c∈figures.take 4,Figure c := fun c hc => hbefore c (List.mem_of_mem_take hc)
  have hfour : (figures.take 4).length=4 := by rw [List.length_take,Nat.min_eq_left hcount]
  have hsixteen : (layout (figures.take 4)).length=16 := by rw [length_layout hfirst,hfour]
  have hshown : display (layout before++glyph d)=display (layout (figures.take 4)) := by
    rw [←display_zero,←layout_concat,hwhole]
    nth_rewrite 1 [←List.take_append_drop 4 figures]
    rw [layout_append,display_append (Nat.le_of_eq hsixteen.symm)]
  have hdrawn := showLoop_figures (figures.take 4) [] hfirst
    (by rw [hfour]; decide) (figures.drop 4++point::fraction)
  rw [List.nil_append,←append_assoc,List.take_append_drop] at hdrawn
  rw [hwhole,hshown]
  refine hdrawn.trans ?_
  cases hmore : figures.drop 4 with
  | nil =>
    exact showLoop_point_over (by rw [hsixteen]; decide) (by rw [hsixteen]; decide) _ _
  | cons c more =>
    have hc : Figure c := hbefore c (List.mem_of_mem_drop (by
      rw [hmore]
      exact mem_cons_self))
    exact showLoop_over hc (Nat.le_of_eq hsixteen.symm) (by rw [hsixteen]; decide) _ _

/-- No column outside of the display is written, whatever the characters. Figures are shown
from the left on, always as a whole, and a point is in the column behind the figure it follows,
unless that is the fourth one or a later one: then the drawing ends before the point. -/
theorem showNumber_columns : (∀ data,∃ r,showNumber data=.ok r)∧(∀ figures,(∀ c∈figures,Figure c) →
      showNumber figures=.ok (display (layout figures),true))∧
    ∀ before d fraction,(∀ c∈before++[d],Figure c) → (∀ c∈fraction,Figure c) →
      showNumber (before++[d]++point::fraction)=
        .ok (display (if before.length≤2 then
          layout before++glyph d++pointColumn::0::layout fraction
            else layout before++glyph d),true) := by
  refine ⟨fun data => showLoop_ok data _ _,fun figures => showNumber_figures,?_⟩
  intro before d fraction hbefore hfraction
  split
  case isTrue hlen => exact showNumber_point hbefore hfraction hlen
  case isFalse hlen => exact showNumber_point_over hbefore (Nat.not_le.mp hlen)

/-- `-1.5`, with the point behind the one. -/
theorem showNumber_columns_negative : showNumber [0x2d,0x31,point,0x35]=
      .ok ([8,8,8,0,0,0x3e,0,0x20,0,0x2e,0x2a,0x3a,0,0,0,0],true) :=
  showNumber_columns.2.2 [0x2d] 0x31 [0x35] (by decide +kernel) (by decide +kernel)

/-- For `1234.5` the column behind the four stays empty, although it is in the display. -/
theorem showNumber_long : showNumber [0x31,0x32,0x33,0x34,point,0x35]=
      .ok (layout [0x31,0x32,0x33]++glyph 0x34++[0],true)∧
    ¬∀ before d fraction,(∀ c∈before++[d],Figure c) → (∀ c∈fraction,Figure c) →
      ∃ buffer,showNumber (before++[d]++point::fraction)=.ok (buffer,true)∧
        buffer[4*before.length+3]?=some pointColumn := by
  refine ⟨rfl,fun h => ?_⟩
  obtain ⟨buffer,hshow,hpoint⟩ := h [0x31,0x32,0x33] 0x34 [0x35] (by decide +kernel)
    (by decide +kernel)
  have hlong : showNumber ([0x31,0x32,0x33]++[0x34]++point::[0x35])=
      .ok (layout [0x31,0x32,0x33]++glyph 0x34++[0],true) := rfl
  rw [hlong] at hshow
  cases hshow
  exact absurd hpoint (by decide)

end Number

end MicroPython.LedNumber
