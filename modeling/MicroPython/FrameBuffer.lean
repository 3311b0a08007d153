import Mathlib.Data.List.Nodup
import Mathlib.Data.List.ProdSigma
import MicroPython.PointUpdates
import MicroPython.Unicode

/-!
# Frame buffers

Each pixel format stores a pixel in its own way and has a fast fill of its own: columns of bits,
rows of bits, rows of words and rows of pairs of nibbles. `fill_rect` clips a rectangle to the
frame and calls the fill of the format. The sums of the clipping and the numbers of the pixels are
computed in `int`, and an overflow there is the only thing that makes a fill differ from setting
each pixel.
-/

namespace MicroPython.FrameBuffer

open Nat List PointUpdates
open Unicode (forall_byte)
open Option (bind_some bind_none map_some)

/-! ## The object -/

/-- The formats. -/
inductive Format where
  /-- `FRAMEBUF_MVLSB` -/
  | mvlsb
  /-- `FRAMEBUF_RGB565` -/
  | rgb565
  /-- `FRAMEBUF_GS4_HMSB` -/
  | gs4Hmsb
  /-- `FRAMEBUF_MHLSB` -/
  | mhlsb
  /-- `FRAMEBUF_MHMSB` -/
  | mhmsb
  deriving DecidableEq

/-- `mp_obj_framebuf_t`, apart from its bytes. -/
structure Framebuf where
  /-- `width` -/
  width : ℕ
  /-- `height` -/
  height : ℕ
  /-- `stride` -/
  stride : ℕ
  /-- `format` -/
  format : Format

/-- An integer that is stored in a `uint16_t`. -/
def toUint16 (i : ℤ) : ℕ := (i%2^16).toNat

/-- `framebuf_make_new`. The result is none for an invalid format. -/
def makeNew (width height format : ℤ) (stride : Option ℤ) : Option Framebuf :=
  let stride := toUint16 (stride.getD width)
  let frame := Framebuf.mk (toUint16 width) (toUint16 height)
  match (format%2^8).toNat with
  | 0 => some (frame stride .mvlsb)
  | 1 => some (frame stride .rgb565)
  | 2 => some (frame ((stride+1)/2*2%2^16) .gs4Hmsb)
  | 3 => some (frame ((stride+7)/8*8%2^16) .mhlsb)
  | 4 => some (frame ((stride+7)/8*8%2^16) .mhmsb)
  | _ => none

/-- An integer that is an `int`. -/
def IsInt (i : ℤ) : Prop := -2^31 ≤ i∧i < 2^31

/-- An integer can be compared with the bounds. -/
instance (i : ℤ) : Decidable (IsInt i) := inferInstanceAs (Decidable (_∧_))

/-- The sum of two `int` values. It is none when it overflows. -/
def sum (i j : ℤ) : Option ℤ := if IsInt (i+j) then some (i+j) else none

/-- `x + y * fb->stride`, computed in `int`. -/
def pixelNumber (fb : Framebuf) (x y : ℕ) : Option ℕ :=
  if x+y*fb.stride < 2^31 then some (x+y*fb.stride) else none

/-! ## Formats of single bits -/

/-- `(b & ~(0x01 << offset)) | ((col != 0) << offset)` -/
def putBit (offset : ℕ) (col : UInt32) (b : UInt8) : UInt8 :=
  b&&&~~~(1<<<UInt8.ofNat offset)|||(if col≠0 then 1 else 0)<<<UInt8.ofNat offset

/-- `(b >> offset) & 0x01` -/
def getBit (offset : ℕ) (b : UInt8) : UInt32 := (b>>>UInt8.ofNat offset&&&0x01).toUInt32

/-- The place of a pixel in its byte. -/
def monoHorizOffset (fb : Framebuf) (x : ℕ) : ℕ :=
  if fb.format=.mhmsb then x%8 else 7-x%8

/-- `mono_horiz_setpixel` -/
def monoHorizSetpixel (fb : Framebuf) (x y : ℕ) (col : UInt32) (buf : List UInt8) :
    Option (List UInt8) :=
  (pixelNumber fb x y).bind fun n => modifyAt buf (n/8) (putBit (monoHorizOffset fb x) col)

/-- `mono_horiz_getpixel` -/
def monoHorizGetpixel (fb : Framebuf) (x y : ℕ) (buf : List UInt8) : Option UInt32 :=
  (pixelNumber fb x y).bind fun n => (buf[n/8]?).map (getBit (monoHorizOffset fb x))

/-- The inner loop of `mono_horiz_fill_rect`: a column from a byte on. -/
def monoHorizFillColumn (advance offset : ℕ) (col : UInt32) : ℕ→ℕ→List UInt8→Option (List UInt8)
  | _,0,buf => some buf
  | b,hh+1,buf => (modifyAt buf b (putBit offset col)).bind
      (monoHorizFillColumn advance offset col (b+advance) hh)

/-- `mono_horiz_fill_rect` -/
def monoHorizFillRect (fb : Framebuf) (x y : ℕ) : ℕ→ℕ→UInt32→List UInt8→Option (List UInt8)
  | 0,_,_,buf => some buf
  | w+1,h,col,buf =>
    let advance := fb.stride/8
    (monoHorizFillColumn advance (monoHorizOffset fb x) col (x/8+y*advance) h buf).bind
      (monoHorizFillRect fb (x+1) y w h col)

/-- `mvlsb_setpixel`. Its index is an `int` for all widths and heights. -/
def mvlsbSetpixel (fb : Framebuf) (x y : ℕ) (col : UInt32) (buf : List UInt8) :
    Option (List UInt8) :=
  modifyAt buf (y/8*fb.stride+x) (putBit (y%8) col)

/-- `mvlsb_getpixel` -/
def mvlsbGetpixel (fb : Framebuf) (x y : ℕ) (buf : List UInt8) : Option UInt32 :=
  (buf[y/8*fb.stride+x]?).map (getBit (y%8))

/-- The inner loop of `mvlsb_fill_rect`: a row from a byte on. -/
def mvlsbFillRow (offset : ℕ) (col : UInt32) : ℕ→ℕ→List UInt8→Option (List UInt8)
  | _,0,buf => some buf
  | b,ww+1,buf => (modifyAt buf b (putBit offset col)).bind (mvlsbFillRow offset col (b+1) ww)

/-- `mvlsb_fill_rect` -/
def mvlsbFillRect (fb : Framebuf) (x y w : ℕ) : ℕ→UInt32→List UInt8→Option (List UInt8)
  | 0,_,buf => some buf
  | h+1,col,buf => (mvlsbFillRow (y%8) col (y/8*fb.stride+x) w buf).bind
      (mvlsbFillRect fb x (y+1) w h col)

/-! ## Words -/

/-- A 16-bit word is stored, its low byte first. -/
def store16 (i : ℕ) (col : UInt32) (buf : List UInt8) : Option (List UInt8) :=
  (modifyAt buf (2*i) fun _ => col.toUInt8).bind fun buf =>
    modifyAt buf (2*i+1) fun _ => (col>>>8).toUInt8

/-- `rgb565_setpixel` -/
def rgb565Setpixel (fb : Framebuf) (x y : ℕ) (col : UInt32) (buf : List UInt8) :
    Option (List UInt8) :=
  (pixelNumber fb x y).bind fun n => store16 n col buf

/-- `rgb565_getpixel` -/
def rgb565Getpixel (fb : Framebuf) (x y : ℕ) (buf : List UInt8) : Option UInt32 :=
  let word (low high : UInt8) : UInt32 := high.toUInt32<<<8|||low.toUInt32
  (pixelNumber fb x y).bind fun n => (buf[2*n]?).bind fun low => (buf[2*n+1]?).map (word low)

/-- The inner loop of `rgb565_fill_rect`: a row from a word on. -/
def rgb565FillRow (col : UInt32) : ℕ→ℕ→List UInt8→Option (List UInt8)
  | _,0,buf => some buf
  | b,ww+1,buf => (store16 b col buf).bind (rgb565FillRow col (b+1) ww)

/-- The outer loop of `rgb565_fill_rect`. The pointer is behind the row when it is advanced. -/
def rgb565FillRows (fb : Framebuf) (w : ℕ) (col : UInt32) : ℕ→ℕ→List UInt8→Option (List UInt8)
  | _,0,buf => some buf
  | b,h+1,buf => (rgb565FillRow col b w buf).bind (rgb565FillRows fb w col (b+w+fb.stride-w) h)

/-- `rgb565_fill_rect` -/
def rgb565FillRect (fb : Framebuf) (x y w h : ℕ) (col : UInt32) (buf : List UInt8) :
    Option (List UInt8) :=
  (pixelNumber fb x y).bind fun b => rgb565FillRows fb w col b h buf

/-! ## Pairs of nibbles -/

/-- `((uint8_t)col & 0x0f) | (b & 0xf0)` -/
def putLow (col : UInt32) (b : UInt8) : UInt8 := col.toUInt8&&&0x0f|||b&&&0xf0

/-- `((uint8_t)col << 4) | (b & 0x0f)` -/
def putHigh (col : UInt32) (b : UInt8) : UInt8 := col.toUInt8<<<4|||b&&&0x0f

/-- `gs4_hmsb_setpixel` -/
def gs4HmsbSetpixel (fb : Framebuf) (x y : ℕ) (col : UInt32) (buf : List UInt8) :
    Option (List UInt8) :=
  (pixelNumber fb x y).bind fun n =>
    modifyAt buf (n/2) (if x%2≠0 then putLow col else putHigh col)

/-- `gs4_hmsb_getpixel` -/
def gs4HmsbGetpixel (fb : Framebuf) (x y : ℕ) (buf : List UInt8) : Option UInt32 :=
  let nibble (b : UInt8) : UInt32 := if x%2≠0 then (b&&&0x0f).toUInt32 else (b>>>4).toUInt32
  (pixelNumber fb x y).bind fun n => (buf[n/2]?).map nibble

/-- `memset` -/
def memset (v : UInt8) : ℕ→ℕ→List UInt8→Option (List UInt8)
  | _,0,buf => some buf
  | b,n+1,buf => (modifyAt buf b fun _ => v).bind (memset v (b+1) n)

/-- A round of `gs4_hmsb_fill_rect`, up to the step to the next line: the half of a pair before
the row, its whole pairs and the half behind them. -/
def gs4HmsbFillRow (oddX : Bool) (w : ℕ) (col : UInt32) (pixelPair : ℕ) (buf : List UInt8) :
    Option (ℕ×List UInt8) :=
  let colShiftedLeft := col.toUInt8<<<4
  let colPixelPair := colShiftedLeft|||col.toUInt8
  let first : Option (ℕ×ℕ×List UInt8) :=
    if oddX=true∧w > 0 then
      (modifyAt buf pixelPair fun b => b&&&0xf0|||col.toUInt8).map fun buf =>
        (pixelPair+1,w-1,buf)
    else some (pixelPair,w,buf)
  first.bind fun (pixelPair,ww,buf) =>
    (memset colPixelPair pixelPair (ww/2) buf).bind fun buf =>
      let pixelPair := pixelPair+ww/2
      if ww%2≠0 then
        (modifyAt buf pixelPair fun b => colShiftedLeft|||b&&&0x0f).map fun buf =>
          (if oddX=true then pixelPair else pixelPair+1,buf)
      else some (pixelPair,buf)

/-- The loop of `gs4_hmsb_fill_rect`. -/
def gs4HmsbFillRows (fb : Framebuf) (oddX : Bool) (w : ℕ) (col : UInt32) : ℕ→ℕ→List UInt8→
    Option (List UInt8)
  | _,0,buf => some buf
  | pixelPair,h+1,buf =>
    let pixelCountTillNextLine := ((fb.stride : ℤ)-w)/2
    (gs4HmsbFillRow oddX w col pixelPair buf).bind fun (pixelPair,buf) =>
      gs4HmsbFillRows fb oddX w col (pixelPair+pixelCountTillNextLine).toNat h buf

/-- `gs4_hmsb_fill_rect` -/
def gs4HmsbFillRect (fb : Framebuf) (x y w h : ℕ) (col : UInt32) (buf : List UInt8) :
    Option (List UInt8) :=
  (pixelNumber fb x y).bind fun n =>
    gs4HmsbFillRows fb (x%2=1) w (col&&&0x0f) (n/2) h buf

/-! ## The methods -/

/-- `setpixel` -/
def setpixel (fb : Framebuf) (x y : ℕ) (col : UInt32) (buf : List UInt8) : Option (List UInt8) :=
  match fb.format with
  | .mvlsb => mvlsbSetpixel fb x y col buf
  | .rgb565 => rgb565Setpixel fb x y col buf
  | .gs4Hmsb => gs4HmsbSetpixel fb x y col buf
  | .mhlsb | .mhmsb => monoHorizSetpixel fb x y col buf

/-- `getpixel` -/
def getpixel (fb : Framebuf) (x y : ℕ) (buf : List UInt8) : Option UInt32 :=
  match fb.format with
  | .mvlsb => mvlsbGetpixel fb x y buf
  | .rgb565 => rgb565Getpixel fb x y buf
  | .gs4Hmsb => gs4HmsbGetpixel fb x y buf
  | .mhlsb | .mhmsb => monoHorizGetpixel fb x y buf

/-- `formats[fb->format].fill_rect` -/
def formatFillRect (fb : Framebuf) (x y w h : ℕ) (col : UInt32) (buf : List UInt8) :
    Option (List UInt8) :=
  match fb.format with
  | .mvlsb => mvlsbFillRect fb x y w h col buf
  | .rgb565 => rgb565FillRect fb x y w h col buf
  | .gs4Hmsb => gs4HmsbFillRect fb x y w h col buf
  | .mhlsb | .mhmsb => monoHorizFillRect fb x y w h col buf

/-- `fill_rect`. The result is none when a sum overflows or a byte outside of the buffer is
used. -/
def fillRect (fb : Framebuf) (x y w h : ℤ) (col : UInt32) (buf : List UInt8) :
    Option (List UInt8) :=
  if h < 1∨w < 1 then some buf
  else (sum x w).bind fun right =>
    if right ≤ 0 then some buf
    else (sum y h).bind fun bottom =>
      if bottom ≤ 0∨y≥fb.height∨x≥fb.width then some buf
      else
        -- clip to the framebuffer
        let xend := min (fb.width : ℤ) right
        let yend := min (fb.height : ℤ) bottom
        let x := max x 0
        let y := max y 0
        formatFillRect fb x.toNat y.toNat (xend-x).toNat (yend-y).toNat col buf

/-! ## Bytes -/

variable {offset : ℕ}

/-- The bits of a byte after one is put into it. -/
theorem bit_putBit (hoffset : offset < 8) (col : UInt32) (b : UInt8) (k : ℕ) :
    (putBit offset col b).toBitVec.getLsbD k=
      if k=offset then decide (col≠0) else b.toBitVec.getLsbD k := by
  have hmod : offset%8=offset := by omega
  by_cases hk : k < 8
  · by_cases heq : k=offset
    · by_cases hcol : col=0
      · simp [putBit,hmod,heq,hoffset,hcol]
      · simp [putBit,hmod,heq,hoffset,hcol]
    · by_cases hlt : k < offset
      · simp [putBit,hmod,heq,hk,hlt]
      · have hne : k-offset≠0 := by omega
        by_cases hcol : col=0
        · simp [putBit,hmod,heq,hk,hlt,hne,hcol]
        · simp [putBit,hmod,heq,hk,hlt,hne,hcol,BitVec.getElem_one]
  · have hne : k≠offset := by omega
    rw [if_neg hne,BitVec.getLsbD_of_ge _ _ (by omega),BitVec.getLsbD_of_ge _ _ (by omega)]

theorem putBit_comm {offset' : ℕ} (h : offset < 8) (h' : offset' < 8) (col : UInt32) (b : UInt8) :
    putBit offset col (putBit offset' col b)=putBit offset' col (putBit offset col b) := by
  refine UInt8.toBitVec_inj.mp (BitVec.eq_of_getLsbD_eq fun k _ => ?_)
  rw [bit_putBit h,bit_putBit h',bit_putBit h',bit_putBit h]
  by_cases hk : k=offset
  · simp [hk]
  · simp [hk]

/-- A bit that is put changes no other one. -/
theorem getBit_putBit {offset' : ℕ} (h : offset < 8) (h' : offset' < 8)
    (hne : offset≠offset') (col : UInt32) (b : UInt8) :
    getBit offset (putBit offset' col b)=getBit offset b := by
  have hmod : offset%8=offset := by omega
  have hbyte : putBit offset' col b>>>UInt8.ofNat offset&&&0x01=b>>>UInt8.ofNat offset&&&0x01 := by
    refine UInt8.toBitVec_inj.mp (BitVec.eq_of_getLsbD_eq fun k _ => ?_)
    by_cases hzero : k=0
    · simp [hzero,hmod,bit_putBit h',hne]
    · simp [BitVec.getLsbD_one,hzero]
  rw [getBit,hbyte,getBit]

variable (b : UInt8)

/-- The halves of single bytes. -/
theorem nibble_table : b&&&0xf0&&&0x0f=0∧b<<<4&&&0x0f=0∧b&&&0x0f&&&0x0f=b&&&0x0f∧
    (b&&&0x0f)>>>4=0∧(b&&&0xf0)>>>4=b>>>4∧b<<<4>>>4=b&&&0x0f∧(b&&&0x0f)<<<4=b<<<4 := by
  refine forall_byte (p := fun b => b&&&0xf0&&&0x0f=0∧b<<<4&&&0x0f=0∧b&&&0x0f&&&0x0f=b&&&0x0f∧
    (b&&&0x0f)>>>4=0∧(b&&&0xf0)>>>4=b>>>4∧b<<<4>>>4=b&&&0x0f∧(b&&&0x0f)<<<4=b<<<4) ?_ b
  decide +kernel

/-- A half is taken of both bytes. -/
theorem or_and (a b c : UInt8) : (a|||b)&&&c=a&&&c|||b&&&c :=
  UInt8.toBitVec_inj.mp BitVec.and_or_distrib_right

variable (col : UInt32)

theorem putLow_low : putLow col b&&&0x0f=col.toUInt8&&&0x0f := by
  rw [putLow,or_and,(nibble_table b).1,(nibble_table col.toUInt8).2.2.1]
  simp

/-- The high half stays. -/
theorem putLow_high : putLow col b>>>4=b>>>4 := by
  rw [putLow,UInt8.shiftRight_or,(nibble_table b).2.2.2.2.1,(nibble_table col.toUInt8).2.2.2.1]
  simp

theorem putHigh_low : putHigh col b&&&0x0f=b&&&0x0f := by
  rw [putHigh,or_and,(nibble_table col.toUInt8).2.1,(nibble_table b).2.2.1]
  simp

theorem putHigh_high : putHigh col b>>>4=col.toUInt8&&&0x0f := by
  rw [putHigh,UInt8.shiftRight_or,(nibble_table b).2.2.2.1,(nibble_table col.toUInt8).2.2.2.2.2.1]
  simp

/-- A byte is known by its halves. -/
theorem nibble_ext {a b : UInt8} (hlow : a&&&0x0f=b&&&0x0f) (hhigh : a>>>4=b>>>4) : a=b := by
  have hmask (n : ℕ) : n&&&15=n%16 := and_two_pow_sub_one_eq_mod n 4
  have hlow := congrArg UInt8.toNat hlow
  have hhigh := congrArg UInt8.toNat hhigh
  simp [hmask,shiftRight_eq_div_pow] at hlow hhigh
  refine UInt8.toNat_inj.mp ?_
  omega

/-- Both halves are put in any order. -/
theorem putLow_putHigh : putLow col (putHigh col b)=putHigh col (putLow col b) := by
  refine nibble_ext ?_ ?_
  · rw [putLow_low,putHigh_low,putLow_low]
  · rw [putLow_high,putHigh_high,putHigh_high]

/-- Nothing of the byte is left then. -/
theorem putLow_pair :
    putLow col (putHigh col b)=col.toUInt8<<<4|||col.toUInt8&&&0x0f := by
  have hcol := nibble_table col.toUInt8
  refine nibble_ext ?_ ?_
  · rw [putLow_low,or_and,hcol.2.1,hcol.2.2.1]
    simp
  · rw [putLow_high,putHigh_high,UInt8.shiftRight_or,hcol.2.2.2.1,hcol.2.2.2.2.2.1]
    simp

/-! ## Pixels as updates -/

/-- The changes that setting a pixel makes. -/
def pixelUpdates (fb : Framebuf) (col : UInt32) (p : ℕ×ℕ) : List (Update UInt8) :=
  let n := p.1+p.2*fb.stride
  match fb.format with
  | .mvlsb => [⟨p.2/8*fb.stride+p.1,putBit (p.2%8) col⟩]
  | .rgb565 => [⟨2*n,fun _ => col.toUInt8⟩,⟨2*n+1,fun _ => (col>>>8).toUInt8⟩]
  | .gs4Hmsb => [⟨n/2,if p.1%2≠0 then putLow col else putHigh col⟩]
  | .mhlsb | .mhmsb => [⟨n/8,putBit (monoHorizOffset fb p.1) col⟩]

/-- The number of a pixel is an `int`. The format with columns of bits does not use it. -/
def NumberFits (fb : Framebuf) (p : ℕ×ℕ) : Prop :=
  fb.format=.mvlsb∨p.1+p.2*fb.stride < 2^31

/-- A number can be compared with the bound. -/
instance (fb : Framebuf) (p : ℕ×ℕ) : Decidable (NumberFits fb p) :=
  inferInstanceAs (Decidable (_∨_))

/-- The stride is a multiple of the pixels of a byte that lie side by side. -/
structure Aligned (fb : Framebuf) : Prop where
  /-- Two pixels. -/
  pairs : fb.format=.gs4Hmsb → fb.stride%2=0
  /-- Eight pixels. -/
  bytes : fb.format=.mhlsb∨fb.format=.mhmsb → fb.stride%8=0

/-- The frame buffers that are made are aligned. -/
theorem makeNew_aligned {width height format : ℤ} {stride : Option ℤ} {fb : Framebuf}
    (h : makeNew width height format stride=some fb) : Aligned fb := by
  rw [makeNew] at h
  split at h <;> cases h
  · exact ⟨nofun,by simp⟩
  · exact ⟨nofun,by simp⟩
  · exact ⟨fun _ => by simp only; omega,by simp⟩
  · exact ⟨nofun,fun _ => by simp only; omega⟩
  · exact ⟨nofun,fun _ => by simp only; omega⟩

variable {fb : Framebuf} {buf : List UInt8}

theorem applyAll_single (u : Update UInt8) (buf : List UInt8) :
    applyAll [u] buf=modifyAt buf u.index u.change := by
  rw [applyAll]
  cases modifyAt buf u.index u.change with
  | none => rfl
  | some buf => rfl

/-- Storing a word makes two updates. -/
theorem store16_eq (n : ℕ) (col : UInt32) (buf : List UInt8) : store16 n col buf=
      applyAll [⟨2*n,fun _ => col.toUInt8⟩,⟨2*n+1,fun _ => (col>>>8).toUInt8⟩] buf := by
  rw [store16,applyAll]
  simp only [funext (applyAll_single _)]

/-- A pixel whose number is an `int` is set. -/
theorem setpixel_eq (x y : ℕ) (col : UInt32) (buf : List UInt8) (h : NumberFits fb (x,y)) :
    setpixel fb x y col buf=applyAll (pixelUpdates fb col (x,y)) buf := by
  have hnumber (hformat : fb.format≠.mvlsb) : pixelNumber fb x y=some (x+y*fb.stride) :=
    if_pos (h.resolve_left hformat)
  rw [setpixel,pixelUpdates]
  cases hformat : fb.format with
  | mvlsb =>
    simp only [mvlsbSetpixel,applyAll_single]
  | rgb565 =>
    simp only [rgb565Setpixel,hnumber (by simp [hformat]),bind_some,store16_eq]
  | gs4Hmsb =>
    simp only [gs4HmsbSetpixel,hnumber (by simp [hformat]),bind_some,applyAll_single]
  | mhlsb =>
    simp only [monoHorizSetpixel,hnumber (by simp [hformat]),bind_some,applyAll_single]
  | mhmsb =>
    simp only [monoHorizSetpixel,hnumber (by simp [hformat]),bind_some,applyAll_single]

/-- Another pixel is not. -/
theorem setpixel_overflow (x y : ℕ) (col : UInt32) (buf : List UInt8)
    (h : ¬NumberFits fb (x,y)) : setpixel fb x y col buf=none := by
  have hformat : fb.format≠.mvlsb := fun hformat => h (.inl hformat)
  have hnumber : pixelNumber fb x y=none := if_neg fun hfits => h (.inr hfits)
  rw [setpixel]
  split
  · contradiction
  all_goals simp only [rgb565Setpixel,gs4HmsbSetpixel,monoHorizSetpixel,hnumber,bind_none]

/-! ## Fills as updates -/

/-- The pixels of a rectangle, column after column. -/
def columns (x y w h : ℕ) : List (ℕ×ℕ) := List.range' x w×ˢList.range' y h

/-- The pixels of a rectangle, row after row. -/
def rows (x y w h : ℕ) : List (ℕ×ℕ) :=
  (List.range' y h×ˢList.range' x w).map Prod.swap

/-- The first row and the others. -/
theorem rows_succ (x y w h : ℕ) :
    rows x y w (h+1)=(List.range' x w).map (fun x => (x,y))++rows x (y+1) w h := by
  rw [rows,List.range'_succ,product_cons,map_append,map_map]
  rfl

/-- The first column and the others. -/
theorem columns_succ (x y w h : ℕ) :
    columns x y (w+1) h=(List.range' y h).map (fun y => (x,y))++columns (x+1) y w h := by
  rw [columns,List.range'_succ,product_cons]
  rfl

/-- A column of single bits. -/
theorem monoHorizFillColumn_eq (hformat : fb.format=.mhlsb∨fb.format=.mhmsb)
    (hstride : fb.stride%8=0) (x y h : ℕ) (col : UInt32) (buf : List UInt8) :
    monoHorizFillColumn (fb.stride/8) (monoHorizOffset fb x) col (x/8+y*(fb.stride/8)) h buf=
      applyAll (((List.range' y h).map fun y => (x,y)).flatMap (pixelUpdates fb col)) buf := by
  induction h generalizing y buf with
  | zero => rfl
  | succ h ih =>
    have hindex : (x+y*fb.stride)/8=x/8+y*(fb.stride/8) := by
      obtain ⟨k,hk⟩ := dvd_of_mod_eq_zero hstride
      have hk' : fb.stride/8=k := by omega
      rw [hk',hk,mul_left_comm,add_mul_div_left _ _ (by decide)]
    have hupdates : pixelUpdates fb col (x,y)=
        [⟨x/8+y*(fb.stride/8),putBit (monoHorizOffset fb x) col⟩] := by
      rcases hformat with hformat | hformat <;> simp only [pixelUpdates,hformat,hindex]
    have hnext : x/8+y*(fb.stride/8)+fb.stride/8=x/8+(y+1)*(fb.stride/8) := by
      rw [succ_mul,add_assoc]
    rw [List.range'_succ,map_cons,flatMap_cons,applyAll_append,hupdates,
      applyAll_single,monoHorizFillColumn,hnext]
    simp only [ih]

theorem monoHorizFillRect_eq (hformat : fb.format=.mhlsb∨fb.format=.mhmsb)
    (hstride : fb.stride%8=0) (x y w h : ℕ) (col : UInt32) (buf : List UInt8) :
    monoHorizFillRect fb x y w h col buf=
      applyAll ((columns x y w h).flatMap (pixelUpdates fb col)) buf := by
  induction w generalizing x buf with
  | zero => rfl
  | succ w ih =>
    rw [columns_succ,flatMap_append,applyAll_append,monoHorizFillRect,
      ←monoHorizFillColumn_eq hformat hstride]
    simp only [ih]

theorem mvlsbFillRow_eq (hformat : fb.format=.mvlsb) (x y w : ℕ) (col : UInt32) (buf : List UInt8) :
    mvlsbFillRow (y%8) col (y/8*fb.stride+x) w buf=
      applyAll (((List.range' x w).map fun x => (x,y)).flatMap (pixelUpdates fb col)) buf := by
  induction w generalizing x buf with
  | zero => rfl
  | succ w ih =>
    have hupdates : pixelUpdates fb col (x,y)=[⟨y/8*fb.stride+x,putBit (y%8) col⟩] := by
      simp only [pixelUpdates,hformat]
    rw [List.range'_succ,map_cons,flatMap_cons,applyAll_append,hupdates,
      applyAll_single,mvlsbFillRow,add_assoc]
    simp only [ih]

theorem mvlsbFillRect_eq (hformat : fb.format=.mvlsb) (x y w h : ℕ) (col : UInt32)
    (buf : List UInt8) :
    mvlsbFillRect fb x y w h col buf=
      applyAll ((rows x y w h).flatMap (pixelUpdates fb col)) buf := by
  induction h generalizing y buf with
  | zero => rfl
  | succ h ih =>
    rw [rows_succ,flatMap_append,applyAll_append,mvlsbFillRect,←mvlsbFillRow_eq hformat]
    simp only [ih]

/-- A row of words. -/
theorem rgb565FillRow_eq (hformat : fb.format=.rgb565) (x y w : ℕ) (col : UInt32)
    (buf : List UInt8) :
    rgb565FillRow col (x+y*fb.stride) w buf=
      applyAll (((List.range' x w).map fun x => (x,y)).flatMap (pixelUpdates fb col)) buf := by
  induction w generalizing x buf with
  | zero => rfl
  | succ w ih =>
    have hupdates : pixelUpdates fb col (x,y)=[⟨2*(x+y*fb.stride),fun _ => col.toUInt8⟩,
        ⟨2*(x+y*fb.stride)+1,fun _ => (col>>>8).toUInt8⟩] := by
      simp only [pixelUpdates,hformat]
    rw [List.range'_succ,map_cons,flatMap_cons,applyAll_append,hupdates,←store16_eq,
      rgb565FillRow,add_right_comm]
    simp only [ih]

/-- Rows of words. -/
theorem rgb565FillRows_eq (hformat : fb.format=.rgb565) (x y w h : ℕ) (col : UInt32)
    (buf : List UInt8) :
    rgb565FillRows fb w col (x+y*fb.stride) h buf=
      applyAll ((rows x y w h).flatMap (pixelUpdates fb col)) buf := by
  induction h generalizing y buf with
  | zero => rfl
  | succ h ih =>
    have hnext : x+y*fb.stride+w+fb.stride-w=x+(y+1)*fb.stride := by
      rw [succ_mul]
      omega
    rw [rows_succ,flatMap_append,applyAll_append,rgb565FillRows,hnext,←rgb565FillRow_eq hformat]
    simp only [ih]

/-- The change of a pixel with a number, two of which share a byte. -/
def nibbleUpdate (col : UInt32) (n : ℕ) : Update UInt8 :=
  ⟨n/2,if n%2≠0 then putLow col else putHigh col⟩

/-- Pairs of pixels are set at once. -/
theorem memset_eq (b k : ℕ) (buf : List UInt8) :
    memset (col.toUInt8<<<4|||col.toUInt8&&&0x0f) b k buf=
      applyAll ((List.range' (2*b) (2*k)).map (nibbleUpdate col)) buf := by
  induction k generalizing b buf with
  | zero => rfl
  | succ k ih =>
    have hfirst : nibbleUpdate col (2*b)=⟨b,putHigh col⟩ := by simp [nibbleUpdate]
    have hsecond : nibbleUpdate col (2*b+1)=⟨b,putLow col⟩ := by
      have hhalf : (2*b+1)/2=b := by omega
      simp [nibbleUpdate,hhalf]
    have hpair : (modifyAt buf b fun _ => col.toUInt8<<<4|||col.toUInt8&&&0x0f)=
        (modifyAt buf b (putHigh col)).bind fun buf => modifyAt buf b (putLow col) := by
      rw [modifyAt,modifyAt]
      split
      case isFalse => rfl
      case isTrue hb =>
        simp only [bind_some,modifyAt,length_modify,if_pos hb]
        refine congrArg some (ext_getElem? fun i => ?_)
        simp only [List.getElem?_modify]
        by_cases hi : b=i
        · cases buf[i]? with
          | none => simp
          | some a => simp [hi,putLow_pair]
        · simp [hi]
    have htwo : 2*(k+1)=2*k+1+1 := by omega
    rw [htwo,List.range'_succ,List.range'_succ,map_cons,map_cons,applyAll,hfirst,memset,
      hpair,Option.bind_assoc]
    simp only [applyAll,hsecond,ih]
    rfl

/-- Whole pairs and the half behind them. -/
theorem gs4HmsbFillRow_tail (b w q q' : ℕ) (buf : List UInt8) :
    ((memset (col.toUInt8<<<4|||col.toUInt8&&&0x0f) b (w/2) buf).bind fun buf =>
      if w%2≠0 then (modifyAt buf (b+w/2) fun b => col.toUInt8<<<4|||b&&&0x0f).map fun buf =>
        (q,buf)
      else some (q',buf))=
    (applyAll ((List.range' (2*b) w).map (nibbleUpdate col)) buf).map fun buf =>
      (if w%2≠0 then q else q',buf) := by
  rw [memset_eq]
  by_cases hw : w%2≠0
  · have hsplit : List.range' (2*b) w=List.range' (2*b) (2*(w/2))++[2*(b+w/2)] := by
      have hlength : w=2*(w/2)+1 := by omega
      conv_lhs => rw [hlength]
      rw [List.range'_1_concat]
      congr 2
      omega
    have hlast : nibbleUpdate col (2*(b+w/2))=⟨b+w/2,putHigh col⟩ := by simp [nibbleUpdate]
    simp only [if_pos hw,hsplit,map_append,map_cons,map_nil,applyAll_append,hlast,
      funext (applyAll_single _),Option.map_bind]
    rfl
  · have hlength : 2*(w/2)=w := by omega
    simp only [if_neg hw,hlength]
    cases applyAll ((List.range' (2*b) w).map (nibbleUpdate col)) buf with
    | none => rfl
    | some buf => rfl

/-- A row of pairs. The pointer is then at the pair behind the row, or at the one that the row
ends in when it begins in the middle of one. -/
theorem gs4HmsbFillRow_eq (n w : ℕ) (col : UInt32) (buf : List UInt8) :
    gs4HmsbFillRow (n%2=1) w (col&&&0x0f) (n/2) buf=
      (applyAll ((List.range' n w).map (nibbleUpdate col)) buf).map fun buf =>
        (if n%2=1 then if w=0 then n/2 else n/2+1+(w-1)/2 else n/2+(w+1)/2,buf) := by
  have hlow : (col&&&0x0f).toUInt8=col.toUInt8&&&0x0f := by simp
  have hshift := (nibble_table col.toUInt8).2.2.2.2.2.2
  rw [gs4HmsbFillRow]
  simp only [hlow,hshift,decide_eq_true_eq]
  by_cases hodd : n%2=1
  · cases w with
    | zero => simp [memset,applyAll]
    | succ w =>
      have hput : (fun b : UInt8 => b&&&0xf0|||col.toUInt8&&&0x0f)=putLow col :=
        funext fun b => UInt8.or_comm ..
      have hfirst : nibbleUpdate col n=⟨n/2,putLow col⟩ := by simp [nibbleUpdate,hodd]
      have hnext : n+1=2*(n/2+1) := by omega
      rw [if_pos ⟨hodd,Nat.succ_pos w⟩,List.range'_succ,map_cons,applyAll,hfirst,hput,hnext]
      cases modifyAt buf (n/2) (putLow col) with
      | none => rfl
      | some buf =>
        simp only [map_some,bind_some,Nat.add_sub_cancel,if_pos hodd,
          gs4HmsbFillRow_tail,ite_self,Nat.succ_ne_zero,if_false]
  · have heven : 2*(n/2)=n := by omega
    rw [if_neg fun h => hodd h.1]
    simp only [bind_some,gs4HmsbFillRow_tail,heven,if_neg hodd]
    congr 1
    funext buf
    congr 1
    split <;> omega

variable {x w y : ℕ} {p : ℕ×ℕ} {ps : List (ℕ×ℕ)}

/-- Rows of pairs. -/
theorem gs4HmsbFillRows_eq (hformat : fb.format=.gs4Hmsb) (hstride : fb.stride%2=0)
    (hw : 0 < w∨x%2=0) (y h : ℕ) (col : UInt32) (buf : List UInt8) :
    gs4HmsbFillRows fb (x%2=1) w (col&&&0x0f) ((x+y*fb.stride)/2) h buf=
      applyAll ((rows x y w h).flatMap (pixelUpdates fb col)) buf := by
  induction h generalizing y buf with
  | zero => rfl
  | succ h ih =>
    have heven (y : ℕ) : y*fb.stride%2=0 := by rw [Nat.mul_mod,hstride,Nat.mul_zero]
    have hparity : (x+y*fb.stride)%2=x%2 := by
      have := heven y
      omega
    have hrow : ((List.range' x w).map fun x => (x,y)).flatMap (pixelUpdates fb col)=
        (List.range' (x+y*fb.stride) w).map (nibbleUpdate col) := by
      have hshift : List.range' (x+y*fb.stride) w=(List.range' x w).map fun x => x+y*fb.stride := by
        have hmap : (List.range' x w).map (fun x => y*fb.stride+x)=
            List.range' (y*fb.stride+x) w := map_add_range' x w 1
        simpa [add_comm] using hmap.symm
      have hupdates (x : ℕ) : pixelUpdates fb col (x,y)=[nibbleUpdate col (x+y*fb.stride)] := by
        have hparity : (x+y*fb.stride)%2=x%2 := by
          omega
        simp only [pixelUpdates,hformat,nibbleUpdate,hparity]
      rw [hshift,map_map,flatMap_map]
      simp only [hupdates]
      exact map_eq_flatMap.symm
    have hnext : ((if (x+y*fb.stride)%2=1 then
          if w=0 then (x+y*fb.stride)/2 else (x+y*fb.stride)/2+1+(w-1)/2
        else (x+y*fb.stride)/2+(w+1)/2 : ℕ)+((fb.stride : ℤ)-w)/2).toNat=
        (x+(y+1)*fb.stride)/2 := by
      rw [succ_mul]
      have := heven y
      split
      case isTrue hodd =>
        have hpositive : w≠0 := by omega
        rw [if_neg hpositive]
        omega
      case isFalse => omega
    have hfill := gs4HmsbFillRow_eq (x+y*fb.stride) w col buf
    rw [hparity] at hfill
    rw [rows_succ,flatMap_append,applyAll_append,gs4HmsbFillRows,hfill,hrow]
    cases applyAll ((List.range' (x+y*fb.stride) w).map (nibbleUpdate col)) buf with
    | none => rfl
    | some buf =>
      simp only [map_some,bind_some]
      rw [←ih,←hnext,hparity]

theorem mem_columns {h : ℕ} (p : ℕ×ℕ) :
    p∈columns x y w h↔(x ≤ p.1∧p.1 < x+w)∧y ≤ p.2∧p.2 < y+h := by
  obtain ⟨x',y'⟩ := p
  simp [columns,mem_product,mem_range'_1]

/-- The rows hold them too. -/
theorem mem_rows {h : ℕ} (p : ℕ×ℕ) : p∈rows x y w h↔(x ≤ p.1∧p.1 < x+w)∧y ≤ p.2∧p.2 < y+h := by
  obtain ⟨x',y'⟩ := p
  simp [rows,mem_product,mem_range'_1,and_comm]

/-- No pixel is twice among the columns. -/
theorem nodup_columns (x y w h : ℕ) : (columns x y w h).Nodup :=
  List.Nodup.product nodup_range' nodup_range'

/-- None is twice among the rows. -/
theorem nodup_rows (x y w h : ℕ) : (rows x y w h).Nodup :=
  (List.Nodup.product nodup_range' nodup_range').map Prod.swap_injective

/-- The fill of each format sets the pixels of its rectangle, in an order of its own. -/
theorem formatFillRect_eq (halign : Aligned fb) (hw : 0 < w∨x%2=0)
    (hcorner : fb.format=.rgb565∨fb.format=.gs4Hmsb → x+y*fb.stride < 2^31) (h : ℕ)
    (col : UInt32) (buf : List UInt8) :
    ∃ ps : List (ℕ×ℕ),ps.Nodup∧(∀ p,p∈ps↔(x ≤ p.1∧p.1 < x+w)∧y ≤ p.2∧p.2 < y+h)∧
      formatFillRect fb x y w h col buf=applyAll (ps.flatMap (pixelUpdates fb col)) buf := by
  have hnumber (hformat : fb.format=.rgb565∨fb.format=.gs4Hmsb) :
      pixelNumber fb x y=some (x+y*fb.stride) := if_pos (hcorner hformat)
  rw [formatFillRect]
  cases hformat : fb.format with
  | mvlsb =>
    exact ⟨_,nodup_rows x y w h,mem_rows,mvlsbFillRect_eq hformat x y w h col buf⟩
  | rgb565 =>
    refine ⟨_,nodup_rows x y w h,mem_rows,?_⟩
    simp only [rgb565FillRect,hnumber (.inl hformat),bind_some,rgb565FillRows_eq hformat]
  | gs4Hmsb =>
    refine ⟨_,nodup_rows x y w h,mem_rows,?_⟩
    simp only [gs4HmsbFillRect,hnumber (.inr hformat),bind_some,
      gs4HmsbFillRows_eq hformat (halign.pairs hformat) hw]
  | mhlsb =>
    exact ⟨_,nodup_columns x y w h,mem_columns,
      monoHorizFillRect_eq (.inl hformat) (halign.bytes (.inl hformat)) x y w h col buf⟩
  | mhmsb =>
    exact ⟨_,nodup_columns x y w h,mem_columns,
      monoHorizFillRect_eq (.inr hformat) (halign.bytes (.inr hformat)) x y w h col buf⟩

/-- A fill that begins at a number that overflows. -/
theorem formatFillRect_overflow
    (hcorner : ¬(fb.format=.rgb565∨fb.format=.gs4Hmsb → x+y*fb.stride < 2^31)) (w h : ℕ)
    (col : UInt32) (buf : List UInt8) : formatFillRect fb x y w h col buf=none := by
  obtain ⟨hformat,hover⟩ := Classical.not_imp.mp hcorner
  have hnumber : pixelNumber fb x y=none := if_neg hover
  rw [formatFillRect]
  rcases hformat with hformat | hformat
  · simp only [hformat,rgb565FillRect,hnumber,bind_none]
  · simp only [hformat,gs4HmsbFillRect,hnumber,bind_none]

/-! ## Setting pixels one by one -/

/-- The pixels of a frame. -/
def framePixels (fb : Framebuf) : List (ℕ×ℕ) := List.range fb.width×ˢList.range fb.height

/-- A pixel lies in a rectangle. -/
def InRectangle (x y w h : ℤ) (p : ℕ×ℕ) : Prop := (x ≤ p.1∧p.1 < x+w)∧y ≤ p.2∧p.2 < y+h

/-- A pixel can be compared with the sides. -/
instance (x y w h : ℤ) (p : ℕ×ℕ) : Decidable (InRectangle x y w h p) :=
  inferInstanceAs (Decidable (_∧_))

/-- The pixels of a rectangle that is clipped to the frame. -/
def rectanglePixels (fb : Framebuf) (x y w h : ℤ) : List (ℕ×ℕ) :=
  (framePixels fb).filter (InRectangle x y w h)

/-- Pixels are set one after another. -/
def setPixels (fb : Framebuf) (col : UInt32) : List (ℕ×ℕ)→List UInt8→Option (List UInt8)
  | [],buf => some buf
  | p::ps,buf => (setpixel fb p.1 p.2 col buf).bind (setPixels fb col ps)

/-- The last byte of a pixel. -/
def lastByte (fb : Framebuf) (p : ℕ×ℕ) : ℕ :=
  let n := p.1+p.2*fb.stride
  match fb.format with
  | .mvlsb => p.2/8*fb.stride+p.1
  | .rgb565 => 2*n+1
  | .gs4Hmsb => n/2
  | .mhlsb | .mhmsb => n/8

/-- The buffer has the bytes of all pixels of the frame. -/
def EnoughBytes (fb : Framebuf) (buf : List UInt8) : Prop :=
  ∀ p∈framePixels fb,lastByte fb p < buf.length

/-- A buffer can be compared with the frame. -/
instance (fb : Framebuf) (buf : List UInt8) : Decidable (EnoughBytes fb buf) :=
  inferInstanceAs (Decidable (∀ p∈framePixels fb,lastByte fb p < buf.length))

/-- The numbers of the pixels in the clipped rectangle are `int` values, and so is that of the
corner where the fill of words and of nibbles begins. -/
def NumbersFit (fb : Framebuf) (x y w h : ℤ) : Prop :=
  (∀ p∈rectanglePixels fb x y w h,NumberFits fb p)∧(fb.format=.rgb565∨fb.format=.gs4Hmsb →
      (max x 0).toNat+(max y 0).toNat*fb.stride < 2^31)

/-- The numbers can be compared with the bound. -/
instance (fb : Framebuf) (x y w h : ℤ) : Decidable (NumbersFit fb x y w h) :=
  inferInstanceAs (Decidable (_∧_))

theorem mem_rectanglePixels {x y w h : ℤ} : p∈rectanglePixels fb x y w h↔
    (p.1 < fb.width∧p.2 < fb.height)∧InRectangle x y w h p := by
  obtain ⟨x',y'⟩ := p
  simp [rectanglePixels,framePixels,mem_product]

/-- No pixel is set twice. -/
theorem nodup_rectanglePixels (fb : Framebuf) (x y w h : ℤ) : (rectanglePixels fb x y w h).Nodup :=
  (List.Nodup.product nodup_range nodup_range).filter _

/-- Pixels whose numbers are `int` values are set. -/
theorem setPixels_eq (h : ∀ p∈ps,NumberFits fb p) (col : UInt32) (buf : List UInt8) :
    setPixels fb col ps buf=applyAll (ps.flatMap (pixelUpdates fb col)) buf := by
  induction ps generalizing buf with
  | nil => rfl
  | cons p ps ih =>
    rw [setPixels,flatMap_cons,applyAll_append,setpixel_eq p.1 p.2 col buf (h p mem_cons_self)]
    simp only [ih fun q hq => h q (mem_cons_of_mem p hq)]

/-- The others fail. -/
theorem setPixels_overflow (hp : p∈ps) (h : ¬NumberFits fb p)
    (col : UInt32) (buf : List UInt8) : setPixels fb col ps buf=none := by
  induction ps generalizing buf with
  | nil => cases hp
  | cons q ps ih =>
    rw [setPixels]
    rcases mem_cons.mp hp with rfl | hp
    · rw [setpixel_overflow p.1 p.2 col buf h,bind_none]
    · simp only [ih hp]
      exact Option.bind_fun_none _

/-- The bytes of the pixels of a frame are there. -/
theorem pixelUpdates_inside (hbuf : EnoughBytes fb buf) (hp : p∈framePixels fb)
    (col : UInt32) : ∀ u∈pixelUpdates fb col p,u.index < buf.length := by
  have hlast := hbuf p hp
  rw [lastByte] at hlast
  intro u hu
  rw [pixelUpdates] at hu
  split at hu <;> simp only [mem_cons,not_mem_nil,or_false] at hu
  case h_2 hformat =>
    simp only [hformat] at hlast
    rcases hu with rfl | rfl
    · exact lt_of_succ_lt hlast
    · exact hlast
  all_goals
    rename_i hformat
    subst hu
    simpa only [hformat] using hlast

/-- A place in a byte. -/
theorem monoHorizOffset_lt (fb : Framebuf) (x : ℕ) : monoHorizOffset fb x < 8 := by
  rw [monoHorizOffset]
  split <;> omega

/-- Pixels of one colour are set in any order. -/
theorem pixelUpdates_commute (fb : Framebuf) (col : UInt32) (p q : ℕ×ℕ) :
    ∀ u∈pixelUpdates fb col p,∀ v∈pixelUpdates fb col q,Commutes u v := by
  intro u hu v hv hindex b
  rw [pixelUpdates] at hu hv
  split at hu
  case h_1 hformat =>
    simp only [hformat,mem_cons,not_mem_nil,or_false] at hu hv
    subst hu hv
    exact putBit_comm (mod_lt _ (by decide)) (mod_lt _ (by decide)) col b
  case h_2 hformat =>
    simp only [hformat,mem_cons,not_mem_nil,or_false] at hu hv
    rcases hu with rfl | rfl
    · rcases hv with rfl | rfl
      · rfl
      · simp only at hindex
        omega
    · rcases hv with rfl | rfl
      · simp only at hindex
        omega
      · rfl
  case h_3 hformat =>
    simp only [hformat,mem_cons,not_mem_nil,or_false] at hu hv
    subst hu hv
    by_cases hp : p.1%2≠0
    · by_cases hq : q.1%2≠0
      · simp only [if_pos hp,if_pos hq]
      · simp only [if_pos hp,if_neg hq,putLow_putHigh]
    · by_cases hq : q.1%2≠0
      · simp only [if_neg hp,if_pos hq,putLow_putHigh]
      · simp only [if_neg hp,if_neg hq]
  all_goals
    rename_i hformat
    simp only [hformat,mem_cons,not_mem_nil,or_false] at hu hv
    subst hu hv
    exact putBit_comm (monoHorizOffset_lt fb _) (monoHorizOffset_lt fb _) col b

/-! ## Other pixels -/

/-- A pixel is known by its number. -/
theorem number_inj {s : ℕ} {p q : ℕ×ℕ} (hp : p.1 < s) (hq : q.1 < s)
    (h : p.1+p.2*s=q.1+q.2*s) : p=q := by
  have hs : 0 < s := by omega
  have hfirst := congrArg (fun n => n%s) h
  have hsecond := congrArg (fun n => n/s) h
  simp only [add_mul_mod_self_right,mod_eq_of_lt hp,mod_eq_of_lt hq] at hfirst
  simp only [add_mul_div_right _ _ hs,div_eq_of_lt hp,div_eq_of_lt hq,zero_add] at hsecond
  exact Prod.ext hfirst hsecond

theorem number_mod {s k : ℕ} (hs : s%k=0) (p : ℕ×ℕ) : (p.1+p.2*s)%k=p.1%k := by
  rw [add_mod,Nat.mul_mod,hs,Nat.mul_zero,zero_mod,add_zero,mod_mod]

/-- Two pixels in the same byte have different places there. -/
theorem monoHorizOffset_ne {q : ℕ×ℕ} (hstride : fb.stride%8=0) (hp : p.1 < fb.stride)
    (hq : q.1 < fb.stride) (hne : p≠q) (hindex : (p.1+p.2*fb.stride)/8=(q.1+q.2*fb.stride)/8) :
    monoHorizOffset fb q.1≠monoHorizOffset fb p.1 := by
  intro hoffset
  have hmod : q.1%8=p.1%8 := by
    rw [monoHorizOffset,monoHorizOffset] at hoffset
    split at hoffset <;> omega
  have hp' := number_mod hstride p
  have hq' := number_mod hstride q
  exact hne (number_inj hp hq (by omega))

theorem pixelNumber_some {n : ℕ} (h : pixelNumber fb x y=some n) : n=x+y*fb.stride := by
  rw [pixelNumber] at h
  split at h <;> cases h
  rfl

/-- Setting pixels changes no other pixel. -/
theorem getpixel_changed (halign : Aligned fb) (col : UInt32)
    (hps : ∀ p∈ps,p.1 < fb.stride) {q : ℕ×ℕ} (hq : q.1 < fb.stride) (hmem : q∉ps)
    (buf : List UInt8) :
    getpixel fb q.1 q.2 (changed (ps.flatMap (pixelUpdates fb col)) buf)=
      getpixel fb q.1 q.2 buf := by
  have hne : ∀ p∈ps,p≠q := fun p hp heq => hmem (heq▸hp)
  have hreads {β : Type} (g : UInt8→β) (i : ℕ)
      (h : ∀ p∈ps,∀ u∈pixelUpdates fb col p,u.index=i → ∀ b,g (u.change b)=g b) :
      ((changed (ps.flatMap (pixelUpdates fb col)) buf)[i]?).map g=(buf[i]?).map g := by
    refine changed_reads g i (fun u hu => ?_) buf
    obtain ⟨p,hp,hu⟩ := mem_flatMap.mp hu
    exact h p hp u hu
  have hmono (hformat : fb.format=.mhlsb∨fb.format=.mhmsb) :
      monoHorizGetpixel fb q.1 q.2 (changed (ps.flatMap (pixelUpdates fb col)) buf)=
        monoHorizGetpixel fb q.1 q.2 buf := by
    simp only [monoHorizGetpixel]
    cases hnumber : pixelNumber fb q.1 q.2 with
    | none => rfl
    | some n =>
      have hn := pixelNumber_some hnumber
      refine hreads _ _ fun p hp u hu hindex b => ?_
      have hupdate : u=⟨(p.1+p.2*fb.stride)/8,putBit (monoHorizOffset fb p.1) col⟩ := by
        rcases hformat with hformat | hformat <;> simpa [pixelUpdates,hformat] using hu
      subst hupdate
      rw [hn] at hindex
      exact getBit_putBit (monoHorizOffset_lt fb _) (monoHorizOffset_lt fb _)
        (monoHorizOffset_ne (halign.bytes hformat) (hps p hp) hq (hne p hp) hindex) col b
  rw [getpixel,getpixel]
  cases hformat : fb.format with
  | mvlsb =>
    refine hreads _ _ fun p hp u hu hindex b => ?_
    simp only [pixelUpdates,hformat,mem_cons,not_mem_nil,or_false] at hu
    subst hu
    have hcolumn : p.1+p.2/8*fb.stride=q.1+q.2/8*fb.stride := by
      simp only at hindex
      omega
    have hbyte := @number_inj fb.stride (p.1,p.2/8) (q.1,q.2/8) (hps p hp) hq hcolumn
    simp only [Prod.mk.injEq] at hbyte
    have hoffset : q.2%8≠p.2%8 := fun hoffset =>
      hne p hp (Prod.ext hbyte.1 (by omega))
    exact getBit_putBit (mod_lt _ (by decide)) (mod_lt _ (by decide)) hoffset col b
  | rgb565 =>
    have hbytes (i : ℕ) (hi : i/2=q.1+q.2*fb.stride) :
        (changed (ps.flatMap (pixelUpdates fb col)) buf)[i]?=buf[i]? := by
      have hread := hreads id i fun p hp u hu hindex => by
        simp only [pixelUpdates,hformat,mem_cons,not_mem_nil,or_false] at hu
        have hnumber : p.1+p.2*fb.stride=q.1+q.2*fb.stride := by
          rcases hu with rfl | rfl
          · simp only at hindex
            omega
          · simp only at hindex
            omega
        exact absurd (number_inj (hps p hp) hq hnumber) (hne p hp)
      simpa using hread
    simp only [rgb565Getpixel]
    cases hnumber : pixelNumber fb q.1 q.2 with
    | none => rfl
    | some n =>
      have hn := pixelNumber_some hnumber
      simp only [bind_some,hbytes (2*n) (by omega),hbytes (2*n+1) (by omega)]
  | gs4Hmsb =>
    simp only [gs4HmsbGetpixel]
    cases hnumber : pixelNumber fb q.1 q.2 with
    | none => rfl
    | some n =>
      have hn := pixelNumber_some hnumber
      simp only [bind_some]
      refine hreads _ _ fun p hp u hu hindex b => ?_
      simp only [pixelUpdates,hformat,mem_cons,not_mem_nil,or_false] at hu
      subst hu
      have hstride := halign.pairs hformat
      have hp' := number_mod hstride p
      have hq' := number_mod hstride q
      -- two pixels in one byte are its halves
      have hhalf : p.1%2≠q.1%2 := by
        intro hmod
        have hpair : (p.1+p.2*fb.stride)/2=n/2 := hindex
        exact hne p hp (number_inj (hps p hp) hq (by omega))
      by_cases hlow : q.1%2≠0
      · have hhigh : ¬p.1%2≠0 := by omega
        simp only [if_pos hlow,if_neg hhigh,putHigh_low]
      · have hhigh : p.1%2≠0 := by omega
        simp only [if_neg hlow,if_pos hhigh,putLow_high]
  | mhlsb => exact hmono (.inl hformat)
  | mhmsb => exact hmono (.inr hformat)

/-! ## Filling a rectangle -/

/-- A fill of a rectangle with pixels in it, after the clipping. -/
theorem formatFillRect_iff (halign : Aligned fb) (hstride : fb.width ≤ fb.stride)
    (hbuf : EnoughBytes fb buf) {x y w h : ℤ} (col : UInt32) (hx : x < fb.width)
    (hw : 0 < w) (hright : 0 < x+w) :
    (∃ out,formatFillRect fb (max x 0).toNat (max y 0).toNat
        (min (fb.width : ℤ) (x+w)-max x 0).toNat (min (fb.height : ℤ) (y+h)-max y 0).toNat
        col buf=some out∧
      setPixels fb col (rectanglePixels fb x y w h) buf=some out∧
      ∀ p∈framePixels fb,p∉rectanglePixels fb x y w h →
        getpixel fb p.1 p.2 out=getpixel fb p.1 p.2 buf)↔
    NumbersFit fb x y w h := by
  constructor
  · rintro ⟨out,hfill,hset,-⟩
    constructor
    · intro p hp
      by_contra hover
      rw [setPixels_overflow hp hover] at hset
      cases hset
    · by_contra hover
      rw [formatFillRect_overflow hover] at hfill
      cases hfill
  · rintro ⟨hfits,hcorner⟩
    -- a frame without columns has nothing to fill from its first column on
    have hcolumns : 0 < (min (fb.width : ℤ) (x+w)-max x 0).toNat∨(max x 0).toNat%2=0 := by omega
    obtain ⟨ps,hnodup,hps,hfill⟩ := formatFillRect_eq halign hcolumns hcorner
      (min (fb.height : ℤ) (y+h)-max y 0).toNat col buf
    have hsame : ∀ p,p∈ps↔p∈rectanglePixels fb x y w h := by
      intro p
      rw [hps,mem_rectanglePixels,InRectangle]
      omega
    have hperm : (ps.flatMap (pixelUpdates fb col)).Perm
        ((rectanglePixels fb x y w h).flatMap (pixelUpdates fb col)) :=
      ((perm_ext_iff_of_nodup hnodup (nodup_rectanglePixels fb x y w h)).mpr hsame).flatMap_right _
    have hframe : ∀ p∈ps,p∈framePixels fb := fun p hp =>
      (mem_filter.mp ((hsame p).mp hp)).1
    have hinside : ∀ u∈ps.flatMap (pixelUpdates fb col),u.index < buf.length := by
      intro u hu
      obtain ⟨p,hp,hu⟩ := mem_flatMap.mp hu
      exact pixelUpdates_inside hbuf (hframe p hp) col u hu
    have hcommute : ∀ u∈ps.flatMap (pixelUpdates fb col),
        ∀ v∈ps.flatMap (pixelUpdates fb col),Commutes u v := by
      intro u hu v hv
      obtain ⟨p,-,hu⟩ := mem_flatMap.mp hu
      obtain ⟨q,-,hv⟩ := mem_flatMap.mp hv
      exact pixelUpdates_commute fb col p q u hu v hv
    have hcolumn : ∀ p∈framePixels fb,p.1 < fb.stride := by
      rintro ⟨x',y'⟩ hp
      have hx' := mem_range.mp (mem_product.mp hp).1
      exact lt_of_lt_of_le hx' hstride
    refine ⟨changed (ps.flatMap (pixelUpdates fb col)) buf,?_,?_,fun p hp hout => ?_⟩
    · rw [hfill,applyAll_inside hinside]
    · rw [setPixels_eq hfits,applyAll_inside fun u hu => hinside u (hperm.mem_iff.mpr hu),
        changed_perm hperm hcommute]
    · exact getpixel_changed halign col (fun q hq => hcolumn q (hframe q hq)) (hcolumn p hp)
        (fun hmem => hout ((hsame p).mp hmem)) buf

/-- Filling a rectangle is setting each of its pixels in the frame, and changes no other pixel,
just when the sums and the numbers of pixels that are computed are `int` values: the right side of
a rectangle that is not empty, the lower side of one that does not end left of the frame, and the
numbers of the pixels when neither lies outside. -/
theorem fillRect_iff {width height format : ℤ} {stride : Option ℤ}
    (hmake : makeNew width height format stride=some fb) (hstride : fb.width ≤ fb.stride)
    (hbuf : EnoughBytes fb buf) (x y w h : ℤ) (col : UInt32) :
    (∃ out,fillRect fb x y w h col buf=some out∧
      setPixels fb col (rectanglePixels fb x y w h) buf=some out∧
      ∀ p∈framePixels fb,p∉rectanglePixels fb x y w h →
        getpixel fb p.1 p.2 out=getpixel fb p.1 p.2 buf)↔
    h < 1∨w < 1∨IsInt (x+w)∧(x+w ≤ 0∨IsInt (y+h)∧
      (y+h ≤ 0∨y≥fb.height∨x≥fb.width∨NumbersFit fb x y w h)) := by
  have hnothing (hempty : ∀ p : ℕ×ℕ,p.1 < fb.width → p.2 < fb.height →
      ¬InRectangle x y w h p) : rectanglePixels fb x y w h=[] := by
    refine List.eq_nil_iff_forall_not_mem.mpr fun p hp => ?_
    obtain ⟨hframe,hin⟩ := mem_rectanglePixels.mp hp
    exact hempty p hframe.1 hframe.2 hin
  have hkeeps (hempty : rectanglePixels fb x y w h=[]) : ∃ out,some buf=some out∧
      setPixels fb col (rectanglePixels fb x y w h) buf=some out∧
      ∀ p∈framePixels fb,p∉rectanglePixels fb x y w h →
        getpixel fb p.1 p.2 out=getpixel fb p.1 p.2 buf :=
    ⟨buf,rfl,by rw [hempty,setPixels],fun _ _ _ => rfl⟩
  rw [fillRect]
  by_cases hsmall : h < 1∨w < 1
  · have hempty := hnothing fun p _ _ hin => by
      rw [InRectangle] at hin
      omega
    rw [if_pos hsmall]
    exact iff_of_true (hkeeps hempty) (hsmall.imp_right .inl)
  rw [if_neg hsmall,sum]
  by_cases hright : IsInt (x+w)
  · rw [if_pos hright,Option.bind_some]
    by_cases hleft : x+w ≤ 0
    · have hempty := hnothing fun p _ _ hin => by
        rw [InRectangle] at hin
        omega
      rw [if_pos hleft]
      exact iff_of_true (hkeeps hempty) (.inr (.inr ⟨hright,.inl hleft⟩))
    rw [if_neg hleft,sum]
    by_cases hlower : IsInt (y+h)
    · rw [if_pos hlower,Option.bind_some]
      by_cases hout : y+h ≤ 0∨y≥fb.height∨x≥fb.width
      · have hempty := hnothing fun p hp hp' hin => by
          rw [InRectangle] at hin
          omega
        rw [if_pos hout]
        exact iff_of_true (hkeeps hempty) (.inr (.inr ⟨hright,.inr ⟨hlower,by omega⟩⟩))
      rw [if_neg hout]
      have hfill := @formatFillRect_iff fb buf (makeNew_aligned hmake) hstride hbuf x y w h col
        (by omega) (by omega) (by omega)
      refine hfill.trans
        ⟨fun hfits => .inr (.inr ⟨hright,.inr ⟨hlower,.inr (.inr (.inr hfits))⟩⟩),?_⟩
      rintro (hh | hw | ⟨-,hright' | ⟨-,hbottom | hbottom | hside | hfits⟩⟩)
      · omega
      · omega
      · omega
      · omega
      · omega
      · omega
      · exact hfits
    · rw [if_neg hlower]
      refine iff_of_false (by rintro ⟨out,hnone,-⟩; cases hnone) ?_
      rintro (hh | hw | ⟨-,hright' | ⟨hlower',-⟩⟩)
      · omega
      · omega
      · omega
      · exact hlower hlower'
  · rw [if_neg hright]
    refine iff_of_false (by rintro ⟨out,hnone,-⟩; cases hnone) ?_
    rintro (hh | hw | ⟨hright',-⟩)
    · omega
    · omega
    · exact hright hright'

/-- Three nibbles in the middle of a frame. -/
theorem fillRect_nibbles : ∃ out,fillRect ⟨5,2,6,.gs4Hmsb⟩ 1 (-1) 3 2 7 [0,0,0,0,0,0]=some out∧
    setPixels ⟨5,2,6,.gs4Hmsb⟩ 7 [(1,0),(2,0),(3,0)] [0,0,0,0,0,0]=some out := by
  have hmake : makeNew 5 2 2 none=some ⟨5,2,6,.gs4Hmsb⟩ := by rfl
  have hbuf : EnoughBytes ⟨5,2,6,.gs4Hmsb⟩ [0,0,0,0,0,0] := by decide
  obtain ⟨out,hfill,hset,-⟩ := (@fillRect_iff ⟨5,2,6,.gs4Hmsb⟩ [0,0,0,0,0,0] 5 2 2 none hmake
    (by decide) hbuf 1 (-1) 3 2 7).mpr
    (.inr (.inr ⟨by decide,.inr ⟨by decide,.inr (.inr (.inr (by decide)))⟩⟩))
  exact ⟨out,hfill,hset⟩

/-- A width that is too large for the sum of the clipping. -/
theorem fillRect_wide : makeNew 8 8 0 none=some ⟨8,8,8,.mvlsb⟩∧
    EnoughBytes ⟨8,8,8,.mvlsb⟩ [0,0,0,0,0,0,0,0]∧
    fillRect ⟨8,8,8,.mvlsb⟩ 5 0 (2^31-1) 1 1 [0,0,0,0,0,0,0,0]=none∧
    setPixels ⟨8,8,8,.mvlsb⟩ 1 (rectanglePixels ⟨8,8,8,.mvlsb⟩ 5 0 (2^31-1) 1)
      [0,0,0,0,0,0,0,0]=some [0,0,0,0,0,1,1,1] := by
  refine ⟨rfl,by decide,by decide,by decide⟩

end MicroPython.FrameBuffer
