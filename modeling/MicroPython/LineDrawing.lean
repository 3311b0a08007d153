import Mathlib.Tactic.Linarith
import Mathlib.Tactic.Ring
import MicroPython.FrameBuffer

/-!
# Lines

`line` steps along the longer axis and along the other one whenever an error term is not negative.
All of it is computed in machine integers of 32 bits, in which an overflow has no meaning.
-/

namespace MicroPython.LineDrawing

open FrameBuffer List
open Option (bind_none bind_some)

/-- A number that is computed. -/
def toInt (i : ℤ) : Option ℤ := if IsInt i then some i else none

/-- The length of a way and its direction. -/
def delta (i j : ℤ) : Option (ℤ×ℤ) :=
  (toInt (j-i)).bind fun d => if d > 0 then some (d,1) else (toInt (-d)).map fun d => (d,-1)

/-- A pixel lies in the frame. -/
abbrev Inside (fb : Framebuf) (p : ℤ×ℤ) : Prop := 0 ≤ p.1∧p.1 < fb.width∧0 ≤ p.2∧p.2 < fb.height

/-- A pixel is set if it lies in the frame. -/
def setInside (fb : Framebuf) (col : UInt32) (p : ℤ×ℤ) (buf : List UInt8) : Option (List UInt8) :=
  if Inside fb p then setpixel fb p.1.toNat p.2.toNat col buf else some buf

/-- The loop for the shorter axis, in a number of rounds at most. -/
def shortLoop (dx sy : ℤ) : ℕ→ℤ→ℤ→Option (ℤ×ℤ)
  | 0,_,_ => none
  | rounds+1,y,e =>
    if e≥0 then
      (toInt (y+sy)).bind fun y => (toInt (2*dx)).bind fun twice =>
        (toInt (e-twice)).bind (shortLoop dx sy rounds y)
    else some (y,e)

/-- A pixel from its places along the two axes. -/
def pixel (steep : Bool) (x y : ℤ) : ℤ×ℤ := if steep then (y,x) else (x,y)

/-- The loop for the longer axis. -/
def longLoop (fb : Framebuf) (col : UInt32) (steep : Bool) (dx dy sx sy : ℤ) :
    ℕ→ℤ→ℤ→ℤ→List UInt8→Option (List UInt8)
  | 0,_,_,_,buf => some buf
  | n+1,x,y,e,buf =>
    (setInside fb col (pixel steep x y) buf).bind fun buf =>
      (shortLoop dx sy (e.toNat+2) y e).bind fun (y,e) => (toInt (x+sx)).bind fun x =>
        (toInt (2*dy)).bind fun twice => (toInt (e+twice)).bind fun e =>
          longLoop fb col steep dx dy sx sy n x y e buf

/-- What follows once the axes are swapped, up to the last pixel. -/
def drawAxes (fb : Framebuf) (col : UInt32) (steep : Bool) (x y dx dy sx sy : ℤ)
    (buf : List UInt8) : Option (List UInt8) :=
  (toInt (2*dy)).bind fun twice => (toInt (twice-dx)).bind fun e =>
    longLoop fb col steep dx dy sx sy dx.toNat x y e buf

/-- `framebuf_line`. The result is none when a number overflows, too. -/
def framebufLine (fb : Framebuf) (x1 y1 x2 y2 : ℤ) (col : UInt32) (buf : List UInt8) :
    Option (List UInt8) :=
  (delta x1 x2).bind fun (dx,sx) => (delta y1 y2).bind fun (dy,sy) =>
    (if dy > dx then drawAxes fb col true y1 x1 dy dx sy sx buf
      else drawAxes fb col false x1 y1 dx dy sx sy buf).bind (setInside fb col (x2,y2))

/-- A point for each step of the longer axis from one end to the other, half a pixel from the line
at most. -/
def Follows (x1 y1 x2 y2 : ℤ) (ps : List (ℤ×ℤ)) : Prop :=
  let dx := (x2-x1).natAbs
  let dy := (y2-y1).natAbs
  ps.length=max dx dy+1∧ps.head?=some (x1,y1)∧ps.getLast?=some (x2,y2)∧
    ∀ (i : ℕ) p,ps[i]?=some p →
      (if dy ≤ dx then (p.1-x1).natAbs=i∧(x2-p.1).natAbs+i=dx
        else (p.2-y1).natAbs=i∧(y2-p.2).natAbs+i=dy)∧
      2*((p.2-y1)*(x2-x1)-(p.1-x1)*(y2-y1)).natAbs ≤ max dx dy

/-- The pixels of a frame among points. -/
def framePoints (fb : Framebuf) (ps : List (ℤ×ℤ)) : List (ℕ×ℕ) :=
  (ps.filter (Inside fb)).map fun p => (p.1.toNat,p.2.toNat)

/-- Just those of the points of a line are set that lie in a frame. -/
def Draws (x1 y1 x2 y2 : ℤ) : Prop :=
  ∃ ps,Follows x1 y1 x2 y2 ps∧∀ fb col buf,
    framebufLine fb x1 y1 x2 y2 col buf=setPixels fb col (framePoints fb ps) buf

/-! ## Numbers that fit -/

/-- A number that fits. -/
theorem toInt_some {i : ℤ} (h : IsInt i) : toInt i=some i := if_pos h

/-- A number that does not fit. -/
theorem toInt_none {i : ℤ} (h : ¬IsInt i) : toInt i=none := if_neg h

/-- What is computed is the number. -/
theorem eq_of_toInt {i j : ℤ} (h : toInt i=some j) : j=i :=
  (Option.some_inj.mp (Option.ite_none_right_eq_some.mp h).2).symm

/-- A way that fits. -/
theorem delta_some (i j : ℤ) (h : (j-i).natAbs < 2^31) : ∃ s : ℤ,(s=1∨s= -1)∧
    delta i j=some (((j-i).natAbs : ℤ),s)∧i=j-s*(j-i).natAbs := by
  rw [delta,toInt_some (by rw [IsInt]; omega),bind_some]
  by_cases hpos : j-i > 0
  · rw [if_pos hpos]
    exact ⟨1,.inl rfl,by rw [Int.natAbs_of_nonneg hpos.le],by omega⟩
  · rw [if_neg hpos,toInt_some (by rw [IsInt]; omega)]
    exact ⟨-1,.inr rfl,by rw [Int.ofNat_natAbs_of_nonpos (not_lt.mp hpos)]; rfl,by omega⟩

/-- A way that does not fit. -/
theorem delta_none {i j : ℤ} (h : ¬(j-i).natAbs < 2^31) : delta i j=none := by
  rw [delta]
  by_cases hint : IsInt (j-i)
  · rw [IsInt] at hint
    rw [toInt_some hint,bind_some,if_neg (by omega),toInt_none (by rw [IsInt]; omega)]
    rfl
  · rw [toInt_none hint,bind_none]

/-! ## The points -/

variable {fb : Framebuf} {col : UInt32} {steep : Bool} {buf : List UInt8}

/-- A point of a list is set after another. -/
theorem setPixels_cons (p : ℤ×ℤ) (ps : List (ℤ×ℤ)) : setPixels fb col (framePoints fb (p::ps)) buf=
    (setInside fb col p buf).bind (setPixels fb col (framePoints fb ps)) := by
  rw [framePoints,setInside,filter_cons]
  by_cases hin : Inside fb p
  · rw [if_pos (decide_eq_true hin),if_pos hin]
    rfl
  · rw [if_neg (by simpa using hin),if_neg hin]
    rfl

/-- Places between others fit. -/
theorem isInt_between {i s m : ℤ} {n : ℕ} (hs : s=1∨s= -1) (hi : IsInt i) (hi' : IsInt (i-s*n))
    (hm : 0 ≤ m) (hmn : m ≤ n) : IsInt (i-s*m) := by
  rw [IsInt] at *
  rcases hs with rfl | rfl <;> omega

/-- The loop for the shorter axis takes one step at most. -/
theorem shortLoop_eq {dx sy y e : ℤ} (h : 0 ≤ e → IsInt (y+sy)∧IsInt (2*dx)∧IsInt (e-2*dx)∧e<2*dx) :
    shortLoop dx sy (e.toNat+2) y e=some (if 0 ≤ e then (y+sy,e-2*dx) else (y,e)) := by
  rw [shortLoop]
  by_cases he : 0 ≤ e
  · obtain ⟨hy,hdx,hnext,hlt⟩ := h he
    rw [if_pos he,if_pos he,toInt_some hy,bind_some,toInt_some hdx,bind_some,toInt_some hnext,
      bind_some,shortLoop,if_neg (by omega)]
  · rw [if_neg he,if_neg he]

/-- The loop for the longer axis visits a point at each step, and the error term keeps it half a
pixel from the line. -/
theorem longLoop_points {a b : ℕ} {s t x y : ℤ} (hs : s=1∨s= -1) (ht : t=1∨t= -1) (hba : b ≤ a)
    (ha : a<2^31) (hfits : b=0∨2*a<2^31) (hx : IsInt x) (hx' : IsInt (x-s*a)) (hy : IsInt y)
    (hy' : IsInt (y-t*b)) (n : ℕ) : ∀ r : ℤ,0 ≤ r → r ≤ b → n ≤ a → -a ≤ 2*(a*r-b*n) →
      (0<a → 2*(a*r-b*n)<a) → ∃ q : ℕ→ℤ,q 0=r∧q n=0∧
        (∀ i : ℕ,i ≤ n → 2*(a*q i-b*(n-i)).natAbs ≤ a)∧
        ∀ fb col steep buf,(longLoop fb col steep a b s t n (x-s*n) (y-t*r)
          (2*(a*r-b*n)-a+2*b) buf).bind (setInside fb col (pixel steep x y))=
            setPixels fb col (framePoints fb ((range (n+1)).map fun i : ℕ =>
              pixel steep (x-s*(n-i)) (y-t*q i))) buf := by
  induction n with
  | zero =>
    intro r hr hrb hn hlow hhigh
    have hzero : r=0 := by
      rcases a.eq_zero_or_pos with rfl | hpos
      · omega
      · have hlt := hhigh hpos
        by_contra hne
        have hmul := mul_le_mul_of_nonneg_left (show 1 ≤ r by omega) (Int.natCast_nonneg a)
        simp only [Nat.cast_zero] at hlt
        omega
    subst hzero
    refine ⟨fun _ => 0,rfl,rfl,fun i hi => by simp [Nat.le_zero.mp hi],fun fb col steep buf => ?_⟩
    rw [range_one,map_singleton,setPixels_cons,longLoop,bind_some]
    simp [framePoints,setPixels]
  | succ n ih =>
    intro r hr hrb hn hlow hhigh
    have hlt := hhigh (by omega)
    push_cast at hlow hlt
    obtain ⟨u,hu⟩ : ∃ u,u=(a : ℤ)*r := ⟨_,rfl⟩
    obtain ⟨v,hv⟩ : ∃ v,v=(b : ℤ)*n := ⟨_,rfl⟩
    have hv' : (b : ℤ)*(n+1)=v+b := by rw [hv]; ring
    rw [←hu,hv'] at hlow hlt
    have hpred : (a : ℤ)*(r-1)=u-a := by rw [hu]; ring
    have hstep : 0 ≤ 2*(u-(v+b))-a+2*b → 1 ≤ r := by
      intro he
      by_contra hlt
      have hzero : u=0 := by rw [hu,show r=0 by omega,mul_zero]
      have hmul := mul_nonneg (Int.natCast_nonneg b) (Int.natCast_nonneg n)
      omega
    obtain ⟨r',hr',hshort⟩ : ∃ r' : ℤ,(0 ≤ r'∧r' ≤ b∧-a ≤ 2*(a*r'-b*n)∧2*(a*r'-b*n)<a)∧
        shortLoop a t ((2*(u-(v+b))-a+2*b).toNat+2) (y-t*r) (2*(u-(v+b))-a+2*b)=
          some (y-t*r',2*(a*r'-b*n)-a) := by
      rw [shortLoop_eq fun he => ?_]
      · by_cases he : 0 ≤ 2*(u-(v+b))-a+2*b
        · have hone := hstep he
          rw [if_pos he]
          refine ⟨r-1,⟨by omega,by omega,?_,?_⟩,?_⟩
          · rw [hpred,←hv]; omega
          · rw [hpred,←hv]; omega
          · rw [hpred,←hv]
            congr 2
            · ring
            · omega
        · rw [if_neg he]
          refine ⟨r,⟨hr,hrb,?_,?_⟩,?_⟩
          · rw [←hu,←hv]; omega
          · rw [←hu,←hv]; omega
          · rw [←hu,←hv]
            congr 2
            omega
      · have hone := hstep he
        have hplace := isInt_between ht hy hy' (show 0 ≤ r-1 by omega) (by omega)
        rw [show y-t*r+t=y-t*(r-1) by ring]
        exact ⟨hplace,⟨by omega,by omega⟩,⟨by omega,by omega⟩,by omega⟩
    obtain ⟨q,hfirst,hlast,hnear,hdraw⟩ := ih r' hr'.1 hr'.2.1 (by omega) hr'.2.2.1
      fun _ => hr'.2.2.2
    refine ⟨fun i => if i=0 then r else q (i-1),rfl,hlast,?_,fun fb col steep buf => ?_⟩
    · intro i hi
      cases i with
      | zero =>
        push_cast
        rw [←hu,sub_zero,hv']
        omega
      | succ i =>
        have hrest := hnear i (by omega)
        push_cast
        rwa [add_sub_add_right_eq_sub]
    · have hplace := isInt_between hs hx hx' (Int.natCast_nonneg n) (by omega)
      have hdouble : IsInt (2*b) := ⟨by omega,by omega⟩
      have herror : IsInt (2*(a*r'-b*n)-a+2*b) := by
        rcases hfits with rfl | hfits
        · rw [show r'=0 by omega,mul_zero,Nat.cast_zero,zero_mul]
          exact ⟨by omega,by omega⟩
        · exact ⟨by omega,by omega⟩
      push_cast
      rw [range_succ_eq_map,map_cons,setPixels_cons,longLoop,←hu,hv',hshort]
      rw [Option.bind_assoc,Nat.cast_zero,sub_zero]
      refine Option.bind_congr fun buf _ => ?_
      rw [bind_some,show x-s*((n : ℤ)+1)+s=x-s*n by ring]
      simp only [toInt_some hplace,toInt_some hdouble,toInt_some herror,bind_some,hdraw,map_map]
      congr 3
      funext i
      simp

/-- The points of the loop follow the line. -/
theorem drawAxes_follows {x1 y1 x2 y2 s t : ℤ} (hs : s=1∨s= -1) (ht : t=1∨t= -1) (hx : IsInt x2)
    (hx1 : IsInt x1) (hy : IsInt y2) (hy1 : IsInt y1) (hxs : x1=x2-s*(x2-x1).natAbs)
    (hyt : y1=y2-t*(y2-y1).natAbs) (hba : (y2-y1).natAbs ≤ (x2-x1).natAbs)
    (ha : (x2-x1).natAbs<2^31) (hfits : (y2-y1).natAbs=0∨2*(x2-x1).natAbs<2^31) :
    ∃ ps,Follows x1 y1 x2 y2 ps∧∀ fb col steep buf,
      (drawAxes fb col steep x1 y1 (x2-x1).natAbs (y2-y1).natAbs s t buf).bind
        (setInside fb col (pixel steep x2 y2))=
          setPixels fb col (framePoints fb (ps.map fun p => pixel steep p.1 p.2)) buf := by
  simp only [Follows]
  generalize (x2-x1).natAbs=a at *
  generalize (y2-y1).natAbs=b at *
  have hstart : (a : ℤ)*b-b*a=0 := by ring
  obtain ⟨q,hfirst,hlast,hnear,hdraw⟩ := longLoop_points hs ht hba ha hfits hx (hxs ▸ hx1) hy
    (hyt ▸ hy1) a b (by omega) le_rfl le_rfl (by omega) (by omega)
  refine ⟨(range (a+1)).map fun i : ℕ => (x2-s*(a-i),y2-t*q i),⟨?_,?_,?_,fun i p hp => ?_⟩,
    fun fb col steep buf => ?_⟩
  · rw [length_map,length_range,max_eq_left hba]
  · rw [range_succ_eq_map,map_cons,head?_cons,hfirst,Nat.cast_zero,sub_zero,←hxs,←hyt]
  · rw [range_succ,map_append,map_singleton,getLast?_concat,hlast,sub_self,mul_zero,mul_zero,
      sub_zero,sub_zero]
  · rw [getElem?_map,Option.map_eq_some_iff] at hp
    obtain ⟨k,hk,rfl⟩ := hp
    obtain ⟨hlt,rfl⟩ := List.getElem?_eq_some_iff.mp hk
    rw [getElem_range]
    rw [length_range] at hlt
    refine ⟨?_,?_⟩
    · rw [if_pos hba]
      rcases hs with rfl | rfl <;> omega
    · have hcross : (y2-t*q i-y1)*(x2-x1)-(x2-s*(a-i)-x1)*(y2-y1)= -(s*t)*(a*q i-b*(a-i)) := by
        rw [hxs,hyt]
        ring
      have hsign : (-(s*t)).natAbs=1 := by rcases hs with rfl | rfl <;> omega
      rw [hcross,Int.natAbs_mul,hsign,one_mul,max_eq_left hba]
      exact hnear i (by omega)
  · have hsum := hdraw fb col steep buf
    rw [hstart,←hxs,←hyt] at hsum
    rw [drawAxes,toInt_some ⟨by omega,by omega⟩,bind_some,toInt_some ⟨by omega,by omega⟩,bind_some,
      Int.toNat_natCast,show (2 : ℤ)*b-a=2*0-a+2*b by ring,hsum,map_map]
    rfl

/-- A line is followed with its axes swapped. -/
theorem follows_swap {x1 y1 x2 y2 : ℤ} {ps : List (ℤ×ℤ)} (h : (x2-x1).natAbs < (y2-y1).natAbs)
    (hps : Follows y1 x1 y2 x2 ps) : Follows x1 y1 x2 y2 (ps.map fun p => (p.2,p.1)) := by
  obtain ⟨hlength,hfirst,hlast,hnear⟩ := hps
  refine ⟨by rw [length_map,hlength,max_comm],by rw [head?_map,hfirst]; rfl,
    by rw [getLast?_map,hlast]; rfl,fun i p hp => ?_⟩
  rw [getElem?_map,Option.map_eq_some_iff] at hp
  obtain ⟨p,hp,rfl⟩ := hp
  obtain ⟨hplace,hcross⟩ := hnear i p hp
  rw [if_pos h.le] at hplace
  refine ⟨by rwa [if_neg h.not_ge],?_⟩
  rwa [max_comm,←Int.natAbs_neg,neg_sub]

/-! ## Numbers that do not fit -/

/-- The loop for the longer axis fails when twice the number of its steps does not fit. -/
theorem longLoop_overflow {a b sx sy : ℤ} (h : 2^31 ≤ 2*a) (n : ℕ) : ∀ {x y e buf},
    0 ≤ e+2*b*n → longLoop fb col steep a b sx sy (n+1) x y e buf=none := by
  have hfails : ∀ n y e,0 ≤ e → shortLoop a sy (n+1) y e=none := by
    intro n y e he
    rw [shortLoop,if_pos he]
    refine Option.bind_eq_none_iff.mpr fun y _ => ?_
    rw [toInt_none fun hint => by rw [IsInt] at hint; omega,bind_none]
  induction n with
  | zero =>
    intro x y e buf he
    rw [longLoop,hfails _ _ _ (by simpa using he)]
    exact Option.bind_fun_none _
  | succ n ih =>
    intro x y e buf he
    rw [longLoop]
    refine Option.bind_eq_none_iff.mpr fun buf _ => ?_
    by_cases hneg : 0 ≤ e
    · rw [hfails _ _ _ hneg,bind_none]
    · rw [shortLoop,if_neg hneg,bind_some]
      refine Option.bind_eq_none_iff.mpr fun x _ => Option.bind_eq_none_iff.mpr fun twice htwice =>
        Option.bind_eq_none_iff.mpr fun e' he' => ih ?_
      rw [eq_of_toInt he',eq_of_toInt htwice]
      push_cast at he
      linarith

/-- So it does for a line that is not parallel to an axis. -/
theorem drawAxes_overflow {a b : ℕ} {x y s t : ℤ} (hb : 0<b) (hba : b ≤ a) (h : 2^31 ≤ 2*a) :
    drawAxes fb col steep x y a b s t buf=none := by
  rw [drawAxes]
  refine Option.bind_eq_none_iff.mpr fun twice htwice => Option.bind_eq_none_iff.mpr fun e he => ?_
  rw [eq_of_toInt he,eq_of_toInt htwice]
  obtain ⟨n,rfl⟩ : ∃ n,a=n+1 := ⟨a-1,by omega⟩
  have hmul := mul_le_mul_of_nonneg_right (show (1 : ℤ) ≤ b by omega) (Int.natCast_nonneg (n+1))
  push_cast at hmul
  exact longLoop_overflow (by exact_mod_cast h) n (by push_cast; linarith)

/-- What is drawn when the ways fit. -/
theorem framebufLine_eq {x1 y1 x2 y2 dx dy sx sy : ℤ} (hdx : delta x1 x2=some (dx,sx))
    (hdy : delta y1 y2=some (dy,sy)) : framebufLine fb x1 y1 x2 y2 col buf=
    (if dy > dx then drawAxes fb col true y1 x1 dy dx sy sx buf
      else drawAxes fb col false x1 y1 dx dy sx sy buf).bind (setInside fb col (x2,y2)) := by
  simp only [framebufLine,hdx,hdy,bind_some]

/-- Nothing is drawn where a number does not fit. -/
theorem framebufLine_overflow {x1 y1 x2 y2 : ℤ} (h : ¬((x2-x1).natAbs<2^31∧(y2-y1).natAbs<2^31∧
    (min (x2-x1).natAbs (y2-y1).natAbs=0∨2*max (x2-x1).natAbs (y2-y1).natAbs<2^31))) :
    framebufLine fb x1 y1 x2 y2 col buf=none := by
  by_cases hdx : (x2-x1).natAbs<2^31
  · obtain ⟨s,-,hs,-⟩ := delta_some x1 x2 hdx
    by_cases hdy : (y2-y1).natAbs<2^31
    · obtain ⟨t,-,ht,-⟩ := delta_some y1 y2 hdy
      rw [framebufLine_eq hs ht]
      split
      · rw [drawAxes_overflow (by omega) (by omega) (by omega),bind_none]
      · rw [drawAxes_overflow (by omega) (by omega) (by omega),bind_none]
    · rw [framebufLine,hs,delta_none hdy]
      rfl
  · rw [framebufLine,delta_none hdx,bind_none]

/-- What is not drawn in an empty frame is not drawn. -/
theorem not_draws {x1 y1 x2 y2 : ℤ}
    (h : framebufLine ⟨0,0,0,.mvlsb⟩ x1 y1 x2 y2 0 []=none) : ¬Draws x1 y1 x2 y2 := by
  rintro ⟨ps,-,hdraw⟩
  have hempty : framePoints ⟨0,0,0,.mvlsb⟩ ps=[] := by
    rw [framePoints,filter_eq_nil_iff.mpr fun p _ => by simp [Inside]]
    rfl
  have hnone := hdraw ⟨0,0,0,.mvlsb⟩ 0 []
  rw [h,hempty] at hnone
  cases hnone

end MicroPython.LineDrawing
