import MicroPython.Calendar
import MicroPython.TwosComplement

/-!
# Seconds and dates

Times are kept as seconds since the start of 2000. They are taken apart into the fields of a
date, in cycles of years that start in March, and put together again from fields that may be far
out of their ranges.
-/

namespace MicroPython.TimeUtils

open Calendar TwosComplement

/-- What an `mp_int_t` of that many bits holds. -/
def signed (bits : ℕ) (z : ℤ) : ℤ := z.bmod (2^bits)

/-- `LEAPOCH`: the first of March of 2000. -/
def leapoch : ℤ := (31+29)*86400

/-- `DAYS_PER_400Y` -/
def daysPer400Y : ℤ := 365*400+97

/-- `DAYS_PER_100Y` -/
def daysPer100Y : ℤ := 365*100+24

/-- `DAYS_PER_4Y` -/
def daysPer4Y : ℤ := 365*4+1

/-- `days_since_jan1` -/
def daysSinceJan1 : List ℕ := [0,31,59,90,120,151,181,212,243,273,304,334,365]

/-- `timeutils_is_leap_year` -/
def timeutilsIsLeapYear (year : ℕ) : Bool := (year%4=0&&year%100≠0)||year%400=0

/-- `timeutils_days_in_month`; there is none for a month outside of the table. -/
def timeutilsDaysInMonth (year : ℕ) : ℕ→Option ℕ
  | 0 => none
  | before+1 => do
    let mdays := (← daysSinceJan1[before+1]?)-(← daysSinceJan1[before]?)
    some (if before+1=2∧timeutilsIsLeapYear year then mdays+1 else mdays)

/-- `timeutils_year_day`; there is none for a month outside of the table. -/
def timeutilsYearDay (year month date : ℕ) : Option ℕ :=
  match month with
  | 0 => none
  | before+1 => do
    let yday := (← daysSinceJan1[before]?)+date
    some (if 3 ≤ before+1∧timeutilsIsLeapYear year then yday+1 else yday)

/-- A field is brought into its range and the rest is carried to the field above, as in
`upper += lower / base; if ((lower = lower % base) < 0) { lower += base; upper--; }`. The field
above has the type that `conv` converts to. -/
def carry (conv : ℤ→ℤ) (base upper lower : ℤ) : ℤ×ℤ :=
  let upper := conv (upper+lower.tdiv base)
  let lower := lower.tmod base
  if lower<0 then (conv (upper-1),lower+base) else (upper,lower)

/-- Days are taken apart into cycles, of which the last may have a day more, as in
`n = days / len; if (n == most) { n--; } days -= n * len;`. -/
def cycles (len most days : ℤ) : ℤ×ℤ :=
  let n := days.tdiv len
  let n := if n=most then n-1 else n
  (n,days-n*len)

/-- The year and the day in it for the days since `LEAPOCH`, in years that start in March. -/
def marchYear (days : ℤ) : ℤ×ℤ :=
  let (qcCycles,days) := carry id daysPer400Y 0 days
  let (cCycles,days) := cycles daysPer100Y 4 days
  let (qCycles,days) := cycles daysPer4Y 25 days
  let (years,days) := cycles 365 4 days
  (2000+years+4*qCycles+100*cCycles+400*qcCycles,days)

/-- The `days_in_month` whose first entry is March. -/
def daysInMonth : List ℤ := [31,30,31,30,31,31,30,31,30,31,31,29]

/-- The loop that takes months off the days; there is nothing beyond the table. -/
def monthLoop (month days : ℤ) : List ℤ→Option (ℤ×ℤ)
  | [] => none
  | n::later => if n ≤ days then monthLoop (month+1) (days-n) later else some (month,days)

/-- `timeutils_struct_time_t` -/
structure StructTime where
  /-- `tm_year`, of 16 bits. -/
  tmYear : ℕ
  /-- `tm_mon`, from 1. -/
  tmMon : ℕ
  /-- `tm_mday`, from 1. -/
  tmMday : ℕ
  /-- `tm_hour` -/
  tmHour : ℕ
  /-- `tm_min` -/
  tmMin : ℕ
  /-- `tm_sec` -/
  tmSec : ℕ
  /-- `tm_wday`, from 0 for Monday. -/
  tmWday : ℕ
  /-- `tm_yday`, of 16 bits, from 1. -/
  tmYday : ℕ
  deriving Repr,DecidableEq

/-- `timeutils_seconds_since_2000_to_struct_time` -/
def timeutilsSecondsSince2000ToStructTime (bits t : ℕ) : Option StructTime := do
  let (days,seconds) := carry id 86400 0 (signed bits (t-leapoch))
  let (_,wday) := carry id 7 0 (days+2)
  let (year,days) := marchYear days
  let year := low 16 year
  let (month,days) ← monthLoop 0 days daysInMonth
  let mon := low 8 (month+2)
  let (mon,year) := if 12 ≤ mon then (low 8 (mon-12),low 16 (year+1)) else (mon,year)
  let mday := low 8 (days+1)
  let mon := low 8 (mon+1)
  let yday ← timeutilsYearDay year mon mday
  some ⟨year,mon,mday,low 8 (seconds.tdiv 3600),low 8 ((seconds.tdiv 60).tmod 60),
    low 8 (seconds.tmod 60),low 8 wday,low 16 yday⟩

/-- `timeutils_seconds_since_2000`; of the operations only a division sees what a word of that
many bits leaves out. -/
def timeutilsSecondsSince2000 (bits year month date hour minute second : ℕ) : Option ℕ := do
  let yday ← timeutilsYearDay year month date
  let years : ℤ := year-2000
  let days : ℤ := yday-1+(low bits (years+3)/4 : ℕ)-(low bits (years+99)/100 : ℕ)+
    (low bits (years+399)/400 : ℕ)
  some (low bits (second+minute*60+hour*3600+days*86400+years*31536000))

/-- `while (mday < 1)`, with a bound on the rounds. -/
def mdayBelow (bits : ℕ) : ℕ→ℕ→ℕ→ℤ→Option (ℕ×ℕ×ℤ)
  | 0,_,_,_ => none
  | fuel+1,year,month,mday =>
    if mday<1 then do
      let (year,month) := if month-1=0 then (low bits (year-1),12) else (year,month-1)
      let days ← timeutilsDaysInMonth year month
      mdayBelow bits fuel year month (signed bits (mday+days))
    else some (year,month,mday)

/-- `while ((mp_uint_t)mday > timeutils_days_in_month(year, month))`, with a bound on the
rounds. -/
def mdayAbove (bits : ℕ) : ℕ→ℕ→ℕ→ℤ→Option (ℕ×ℕ×ℤ)
  | 0,_,_,_ => none
  | fuel+1,year,month,mday => do
    let days ← timeutilsDaysInMonth year month
    if days<low bits mday then
      let (year,month) := if month+1=13 then (low bits (year+1),1) else (year,month+1)
      mdayAbove bits fuel year month (signed bits (mday-days))
    else some (year,month,mday)

/-- `timeutils_mktime` -/
def timeutilsMktime (bits fuel year : ℕ) (month mday hours minutes seconds : ℤ) :
    Option ℕ := do
  let (minutes,seconds) := carry (signed bits) 60 minutes seconds
  let (hours,minutes) := carry (signed bits) 60 hours minutes
  let (mday,hours) := carry (signed bits) 24 mday hours
  let (year,month) := carry (fun z => low bits z) 12 year (signed bits (month-1))
  let (year,month,mday) ← mdayBelow bits fuel year.toNat (month+1).toNat mday
  let (year,month,mday) ← mdayAbove bits fuel year month mday
  timeutilsSecondsSince2000 bits year month (low bits mday) hours.toNat minutes.toNat
    seconds.toNat

/-- The table holds the days before each month. -/
theorem daysSinceJan1_eq {month : ℕ} (h : month ≤ 12) :
    daysSinceJan1[month]?=some (commonStart month) := by
  interval_cases month <;> rfl

/-- The years with a day more are those of the calendar. -/
theorem timeutilsIsLeapYear_iff (year : ℕ) : timeutilsIsLeapYear year=true↔IsLeap year := by
  simp only [timeutilsIsLeapYear,IsLeap,Bool.or_eq_true,Bool.and_eq_true,decide_eq_true_eq]
  omega

/-- The days of a month are those of the calendar. -/
theorem timeutilsDaysInMonth_eq (month : ℕ) :
    timeutilsDaysInMonth (month/12) (month%12+1)=some (monthLength month) := by
  have hlt := Nat.mod_lt month (Nat.succ_pos 11)
  have hstart := monthStart_add (month/12) (Nat.le_of_lt hlt)
  have hnext := monthStart_add (month/12) (Nat.succ_le_of_lt hlt)
  rw [Nat.succ_eq_add_one,←Nat.add_assoc,monthStart,hstart,Nat.div_add_mod] at hnext
  rw [timeutilsDaysInMonth,daysSinceJan1_eq (Nat.le_of_lt hlt),
    daysSinceJan1_eq (Nat.succ_le_of_lt hlt)]
  simp only [timeutilsIsLeapYear_iff,Option.bind_eq_bind,Option.bind_some,
    Option.some_inj]
  by_cases hleap : IsLeap (month/12) <;>
    (generalize month%12=m at hlt hnext ⊢;
     interval_cases m <;> simp [commonStart,hleap] at hnext ⊢ <;> omega)

/-- The number of a day in its year, from the days before its month. -/
theorem timeutilsYearDay_eq (month date : ℕ) : ∃ yday,
    timeutilsYearDay (month/12) (month%12+1) date=some yday∧
      monthStart (12*(month/12))+yday=monthStart month+date := by
  have hlt := Nat.mod_lt month (Nat.succ_pos 11)
  have hstart := monthStart_add (month/12) (Nat.le_of_lt hlt)
  rw [Nat.div_add_mod] at hstart
  rw [timeutilsYearDay,daysSinceJan1_eq (Nat.le_of_lt hlt)]
  refine ⟨_,rfl,?_⟩
  simp only [timeutilsIsLeapYear_iff,Nat.succ_le_succ_iff]
  rw [hstart]
  split_ifs <;> omega

variable {bits : ℕ}

/-- The sizes of a word of 32 bits or more. -/
theorem word_sizes (hbits : 32 ≤ bits) : (2 : ℤ)^31 ≤ 2^(bits-1)∧(2 : ℤ)^bits=2*2^(bits-1)∧
    ((2^bits : ℕ) : ℤ)=2^bits :=
  ⟨pow_le_pow_right₀ (by decide) (by omega),by rw [←pow_succ',Nat.sub_add_cancel (by omega)],
    Nat.cast_pow ..⟩

/-- An integer in the range of an `mp_int_t` is kept. -/
theorem signed_eq {z : ℤ} (h : Within (bits-1) z) (hbits : 0 < bits) : signed bits z=z := by
  obtain ⟨n,rfl⟩ := Nat.exists_eq_succ_of_ne_zero (Nat.ne_of_gt hbits)
  refine Int.bmod_eq_of_le_mul_two ?_ ?_ <;>
    (have hpow := pow_succ (2 : ℤ) n
     obtain ⟨h₁,h₂⟩ := h
     push_cast
     simp only [Nat.succ_sub_one] at h₁ h₂
     omega)

/-- An integer in the range of an `mp_uint_t` is kept. -/
theorem low_eq {z : ℤ} (h : 0 ≤ z) (hlt : z<2^bits) : (low bits z : ℤ)=z := by
  rw [low,Int.emod_eq_of_lt h hlt,Int.toNat_of_nonneg h]

/-- A carry divides with a remainder that is not negative. -/
theorem carry_eq {conv : ℤ→ℤ} {base upper lower : ℤ} (hbase : 0 < base)
    (h : conv (upper+lower.tdiv base)=upper+lower.tdiv base)
    (h' : conv (upper+lower/base)=upper+lower/base) :
    carry conv base upper lower=(upper+lower/base,lower%base) := by
  rw [carry,h]
  have hnonneg := Int.emod_nonneg lower (Int.ne_of_gt hbase)
  have hlt := Int.emod_lt_of_pos lower hbase
  rw [Int.tdiv_eq_ediv,Int.tmod_eq_emod]
  simp only [Int.sign_eq_one_of_pos hbase]
  split_ifs with hexact hneg hneg
  · omega
  · simp
  · rw [show upper+(lower/base+1)-1=upper+lower/base by ring,h',
      Int.natAbs_of_nonneg (Int.le_of_lt hbase),Int.sub_add_cancel]
  · omega

/-- A carry between integers. -/
theorem carry_id {base lower : ℤ} (hbase : 0 < base) :
    carry id base 0 lower=(lower/base,lower%base) := by
  rw [carry_eq hbase rfl rfl,Int.zero_add]

/-- Days in cycles: only the last cycle may be complete. -/
theorem cycles_eq {len most days : ℤ} (hlen : 0 < len) (hpos : 0 < most) (h : 0 ≤ days)
    (hmost : days ≤ most*len) :
    ∃ n rest,cycles len most days=(n,rest)∧days=n*len+rest∧0 ≤ n∧n < most∧0 ≤ rest∧
      (rest<len∨n=most-1∧rest=len) := by
  have hdiv := Int.mul_ediv_add_emod days len
  have hnonneg := Int.emod_nonneg days (Int.ne_of_gt hlen)
  have hlt := Int.emod_lt_of_pos days hlen
  have hn := Int.ediv_nonneg h (Int.le_of_lt hlen)
  rw [cycles,Int.tdiv_eq_ediv_of_nonneg h]
  by_cases hlast : days/len=most
  · have hexact : days=most*len := by
      rw [hlast,Int.mul_comm] at hdiv
      omega
    refine ⟨_,_,rfl,by ring,?_⟩
    rw [if_pos hlast,hlast,hexact,show most*len-(most-1)*len=len by ring]
    exact ⟨by omega,by omega,Int.le_of_lt hlen,Or.inr ⟨rfl,rfl⟩⟩
  · refine ⟨_,_,rfl,by ring,?_⟩
    have hle : days/len ≤ most := Int.ediv_le_of_le_mul hlen hmost
    rw [if_neg hlast,show days-days/len*len=days%len by
      rw [Int.mul_comm] at hdiv
      omega]
    exact ⟨hn,by omega,hnonneg,Or.inl hlt⟩

/-- The days before 2000. -/
theorem monthStart_2000 : monthStart 24000=730485 := by
  have h := monthStart_year 2000
  generalize monthStart (12*2000)=m at h ⊢
  omega

/-- The year from March that holds a day, by the start of the next year. -/
theorem marchYear_eq {days : ℤ} (h : -60 ≤ days) : ∃ year : ℕ,∃ day : ℤ,
    marchYear days=((year : ℤ),day)∧2000 ≤ year+1∧0 ≤ day∧day ≤ 365∧
      (day=365→IsLeap (year+1))∧(year=1999→306 ≤ day)∧
        (monthStart (12*(year+1)) : ℤ)+day=monthStart 24000+366+days := by
  have hqc := @carry_id _ days (show 0 < daysPer400Y by decide)
  obtain ⟨c,day₁,hc,hc₁,hc₂,hc₃,hc₄,hc₅⟩ :=
    @cycles_eq daysPer100Y 4 (days%daysPer400Y) (by decide) (by decide)
      (by simp only [daysPer400Y]; omega)
      (by simp only [daysPer400Y,daysPer100Y]; omega)
  simp only [daysPer100Y,daysPer400Y] at hc₁ hc₄ hc₅
  obtain ⟨q,day₂,hq,hq₁,hq₂,hq₃,hq₄,hq₅⟩ :=
    @cycles_eq daysPer4Y 25 day₁ (by decide) (by decide) hc₄ (by simp only [daysPer4Y]; omega)
  simp only [daysPer4Y] at hq₁ hq₄ hq₅
  obtain ⟨y,day,hy,hy₁,hy₂,hy₃,hy₄,hy₅⟩ :=
    @cycles_eq 365 4 day₂ (by decide) (by decide) hq₄ (by omega)
  obtain ⟨year,hyear⟩ : ∃ year : ℕ,2000+y+4*q+100*c+400*(days/daysPer400Y)=year :=
    ⟨_,(Int.toNat_of_nonneg (by simp only [daysPer400Y]; omega)).symm⟩
  refine ⟨year,day,?_,?_⟩
  · simp only [marchYear,hqc,hc,hq,hy,hyear]
  · have hstart := monthStart_year (year+1)
    simp only [daysPer400Y] at hyear
    rw [monthStart_2000]
    refine ⟨by omega,by omega,by omega,fun h => ?_,by omega,?_⟩
    · rw [IsLeap]
      omega
    · have h₄ : (((year+1+3)/4 : ℕ) : ℤ)=501+q+25*c+100*(days/146097) := by omega
      have h₁₀₀ : (((year+1+99)/100 : ℕ) : ℤ)=21+c+4*(days/146097) := by omega
      have h₄₀₀ : (((year+1+399)/400 : ℕ) : ℤ)=6+days/146097 := by omega
      omega

/-- The loop that goes back to earlier months keeps the day. -/
theorem mdayBelow_eq (hbits : 32 ≤ bits) (month : ℕ) : ∀ {fuel : ℕ} {mday : ℤ},month<fuel →
    month/12<2^bits → Within (bits-1) mday → 1 ≤ monthStart month+mday → ∃ earlier mday',
      mdayBelow bits fuel (month/12) (month%12+1) mday=some (earlier/12,earlier%12+1,mday')∧
        Within (bits-1) mday'∧1 ≤ mday'∧monthStart earlier+mday'=monthStart month+mday := by
  have hword := (word_sizes hbits).1
  induction month with
  | zero =>
    intro fuel mday hfuel _ hwithin hday
    obtain ⟨fuel,rfl⟩ := Nat.exists_eq_succ_of_ne_zero (Nat.ne_of_gt hfuel)
    simp only [monthStart] at hday
    exact ⟨0,mday,by rw [mdayBelow,if_neg (by omega)],hwithin,by omega,rfl⟩
  | succ month ih =>
    intro fuel mday hfuel hyear hwithin hday
    obtain ⟨fuel,rfl⟩ := Nat.exists_eq_succ_of_ne_zero (Nat.ne_of_gt (Nat.zero_lt_of_lt hfuel))
    rw [mdayBelow]
    by_cases hmday : mday<1
    · have hback : (if (month+1)%12+1-1=0 then (low bits (((month+1)/12 : ℕ)-1),12)
          else ((month+1)/12,(month+1)%12+1-1))=(month/12,month%12+1) := by
        split
        case isTrue hfirst =>
          have hcast : (((month+1)/12 : ℕ) : ℤ)-1=(month/12 : ℕ) := by omega
          rw [hcast,low_ofNat,Nat.mod_eq_of_lt (by omega)]
          exact congrArg _ (by omega)
        case isFalse hlater => exact Prod.ext (by simp only; omega) (by simp only; omega)
      have hlen := monthLength_bounds month
      have hkept : Within (bits-1) (mday+monthLength month) := by
        refine ⟨?_,?_⟩ <;> have := hwithin.1 <;> omega
      rw [if_pos hmday,hback]
      simp only [timeutilsDaysInMonth_eq,Option.bind_eq_bind,Option.bind_some]
      rw [signed_eq hkept (by omega)]
      obtain ⟨earlier,mday',hrun,hwithin',hpos,hsame⟩ :=
        ih (by omega : month<fuel) (by omega) hkept (by rw [monthStart] at hday; omega)
      exact ⟨earlier,mday',hrun,hwithin',hpos,by rw [hsame,monthStart]; omega⟩
    · exact ⟨month+1,mday,by rw [if_neg hmday],hwithin,by omega,rfl⟩

/-- The loop that goes on to later months keeps the day and ends in its month. -/
theorem mdayAbove_eq (hbits : 32 ≤ bits) : ∀ (fuel : ℕ) {month : ℕ} {mday : ℤ},mday<fuel →
    Within (bits-1) mday → 1 ≤ mday → monthStart month+mday<2^bits → ∃ later mday',
      mdayAbove bits fuel (month/12) (month%12+1) mday=some (later/12,later%12+1,mday')∧
        1 ≤ mday'∧mday' ≤ monthLength later∧
          monthStart later+mday'=monthStart month+mday := by
  intro fuel
  induction fuel with
  | zero =>
    intro month mday hfuel _ hpos _
    omega
  | succ fuel ih =>
    intro month mday hfuel hwithin hpos hlast
    have hlen := monthLength_bounds month
    obtain ⟨hword,hdouble,hcast⟩ := word_sizes hbits
    have hmday := @low_eq bits mday (by omega) (by have := hwithin.2; omega)
    rw [mdayAbove]
    simp only [timeutilsDaysInMonth_eq,Option.bind_eq_bind,Option.bind_some]
    by_cases hmore : monthLength month<low bits mday
    · have hmono := monthStart_mono (Nat.zero_le month)
      have hnext : (if month%12+1+1=13 then (low bits ((month/12 : ℕ)+1),1)
          else (month/12,month%12+1+1))=((month+1)/12,(month+1)%12+1) := by
        split
        case isTrue hlast' =>
          have hcast' : ((month/12 : ℕ) : ℤ)+1=((month+1)/12 : ℕ) := by omega
          rw [hcast',low_ofNat,Nat.mod_eq_of_lt (by omega)]
          exact congrArg _ (by omega)
        case isFalse hlater => exact Prod.ext (by simp only; omega) (by simp only; omega)
      have hkept : Within (bits-1) (mday-monthLength month) := by
        refine ⟨?_,?_⟩ <;> have := hwithin.1 <;> have := hwithin.2 <;> omega
      rw [if_pos hmore,hnext]
      simp only [signed_eq hkept (by omega)]
      obtain ⟨later,mday',hrun,hpos',hle,hsame⟩ :=
        @ih (month+1) _ (by omega) hkept (by omega) (by rw [monthStart]; omega)
      exact ⟨later,mday',hrun,hpos',hle,by rw [hsame,monthStart]; omega⟩
    · exact ⟨month,mday,by rw [if_neg hmore],hpos,by omega,rfl⟩

/-- The seconds from the start of 2000 to a day of a month and a time of the day, counted on in
either direction. -/
def secondsTo (month : ℕ) (mday hours minutes seconds : ℤ) : ℤ :=
  ((((monthStart month : ℤ)-monthStart 24000+mday-1)*24+hours)*60+minutes)*60+seconds

/-- The seconds to a date since 2000. -/
theorem timeutilsSecondsSince2000_eq (hbits : 32 ≤ bits) {month mday hours minutes seconds : ℕ}
    (hmonth : 24000 ≤ month) (hword : secondsTo month mday hours minutes seconds<2^bits)
    (hpos : 1 ≤ mday) :
    timeutilsSecondsSince2000 bits (month/12) (month%12+1) mday hours minutes seconds=
      some (secondsTo month mday hours minutes seconds).toNat := by
  obtain ⟨yday,hyday,hday⟩ := timeutilsYearDay_eq month mday
  have hstart := monthStart_year (month/12)
  have hfirst := monthStart_add (month/12) (Nat.le_of_lt (Nat.mod_lt month (Nat.succ_pos 11)))
  rw [Nat.div_add_mod] at hfirst
  obtain ⟨y,hy⟩ : ∃ y,month/12=2000+y := ⟨_,(Nat.add_sub_cancel' (by omega)).symm⟩
  rw [timeutilsSecondsSince2000,hyday]
  simp only [secondsTo,monthStart_2000,hy] at hword hstart hfirst hday ⊢
  obtain ⟨hleast,hdouble,hcast'⟩ := word_sizes hbits
  have hsmall : ∀ n : ℕ,n ≤ 399 → low bits (((2000+y : ℕ) : ℤ)-2000+n)=y+n := by
    intro n hn
    have hcast : ((2000+y : ℕ) : ℤ)-2000+n=((y+n : ℕ) : ℤ) := by omega
    rw [hcast,low_ofNat,Nat.mod_eq_of_lt (by omega)]
  have h₃ := hsmall 3 (by omega)
  have h₉₉ := hsmall 99 (by omega)
  have h₃₉₉ := hsmall 399 (by omega)
  simp only [Option.bind_eq_bind,Option.bind_some,Option.some_inj,Nat.cast_ofNat] at h₃ h₉₉ h₃₉₉ ⊢
  rw [h₃,h₉₉,h₃₉₉,low,Int.emod_eq_of_lt]
  · congr 1
    omega
  · omega
  · omega

/-- The sums of the carries fit the words that hold them. -/
def Fits (bits year : ℕ) (month mday hours minutes seconds : ℤ) : Prop :=
  let carries (upper lower base : ℤ) :=
    Within (bits-1) (upper+lower.tdiv base)∧Within (bits-1) (upper+lower/base)
  let minutes' := minutes+seconds/60
  let hours' := hours+minutes'/60
  carries minutes seconds 60∧carries hours minutes' 60∧carries mday hours' 24∧
    Within (bits-1) (month-1)∧year<2^bits∧0 ≤ 12*year+month-1∧year+(month-1).tdiv 12<2^bits

/-- The seconds from fields that may be out of their ranges. -/
theorem timeutilsMktime_eq (hbits : 32 ≤ bits) {year : ℕ} {month mday hours minutes seconds : ℤ}
    (hfits : Fits bits year month mday hours minutes seconds)
    (hfrom : 0 ≤ secondsTo (12*year+month-1).toNat mday hours minutes seconds)
    (hto : secondsTo (12*year+month-1).toNat mday hours minutes seconds<2^bits) :
    ∃ enough,∀ fuel,enough ≤ fuel → timeutilsMktime bits fuel year month mday hours minutes seconds=
      some (secondsTo (12*year+month-1).toNat mday hours minutes seconds).toNat := by
  obtain ⟨⟨h₁,h₁'⟩,⟨h₂,h₂'⟩,⟨h₃,h₃'⟩,hmonth,hyear,hfirst,hlast⟩ := hfits
  have hpos : 0 < bits := by omega
  obtain ⟨hleast,hword,hcast⟩ := word_sizes hbits
  have hcarry : (month-1)/12 ≤ (month-1).tdiv 12 := by
    rw [Int.tdiv_eq_ediv,Int.sign_eq_one_of_pos (by decide)]
    split <;> omega
  have hcarried := @carry_eq (fun z => low bits z) 12 year (month-1) (by decide)
    (low_eq (by omega) hlast) (low_eq (by omega) (by omega))
  obtain ⟨k,hk⟩ : ∃ k : ℕ,12*year+month-1=k := ⟨_,(Int.toNat_of_nonneg hfirst).symm⟩
  have hdiv : (year+(month-1)/12).toNat=k/12 := by omega
  have hmod : ((month-1)%12+1).toNat=k%12+1 := by omega
  rw [hk,Int.toNat_natCast] at hfrom hto ⊢
  have hsecond := carry_eq (by decide) (signed_eq h₁ hpos) (signed_eq h₁' hpos)
  have hminute := carry_eq (by decide) (signed_eq h₂ hpos) (signed_eq h₂' hpos)
  have hhour := carry_eq (by decide) (signed_eq h₃ hpos) (signed_eq h₃' hpos)
  obtain ⟨minutes',hminutes⟩ : ∃ m,minutes+seconds/60=m := ⟨_,rfl⟩
  obtain ⟨hours',hhours⟩ : ∃ h,hours+minutes'/60=h := ⟨_,rfl⟩
  obtain ⟨mday',hmday⟩ : ∃ d,mday+hours'/24=d := ⟨_,rfl⟩
  rw [hminutes] at hsecond hminute hhour h₃'
  rw [hhours] at hminute hhour h₃'
  rw [hmday] at hhour h₃'
  have hsame : secondsTo k mday hours minutes seconds=
      secondsTo k mday' (hours'%24) (minutes'%60) (seconds%60) := by
    rw [secondsTo,secondsTo]
    omega
  rw [hsame] at hfrom hto ⊢
  have hday : 730486 ≤ monthStart k+mday' := by
    simp only [secondsTo,monthStart_2000] at hfrom
    omega
  refine ⟨k+1+(monthStart k+mday').toNat,fun fuel hfuel => ?_⟩
  obtain ⟨earlier,before,hbelow,hwithin,hbefore,hsum⟩ :=
    @mdayBelow_eq bits hbits k fuel mday' (by omega) (by omega) h₃' (by omega)
  obtain ⟨later,after,habove,hafter,hle,hsum'⟩ :=
    @mdayAbove_eq bits hbits fuel earlier before (by omega) hwithin hbefore (by
      simp only [secondsTo,monthStart_2000] at hto
      omega)
  obtain ⟨date,rfl⟩ : ∃ date : ℕ,after=date := ⟨_,(Int.toNat_of_nonneg (by omega)).symm⟩
  have hlater : 24000 ≤ later := by
    by_contra hlt
    have hmono := monthStart_mono (show later+1 ≤ 24000 by omega)
    rw [monthStart,monthStart_2000] at hmono
    omega
  have htotal : secondsTo later date (hours'%24).toNat (minutes'%60).toNat (seconds%60).toNat=
      secondsTo k mday' (hours'%24) (minutes'%60) (seconds%60) := by
    simp only [secondsTo]
    omega
  have hdate : low bits (date : ℤ)=date := by
    have hlen := monthLength_bounds later
    exact Int.ofNat_inj.mp (low_eq (by omega) (by omega))
  rw [timeutilsMktime]
  simp only [hsecond,hminute,hhour,signed_eq hmonth hpos,hcarried,hdiv,hmod,hbelow,habove,hdate,
    Option.bind_eq_bind,Option.bind_some]
  rw [timeutilsSecondsSince2000_eq hbits hlater (by rw [htotal]; exact hto) (by omega),htotal]

/-- The loop takes off the months that are complete. -/
theorem monthLoop_take (table : List ℤ) : ∀ {month days : ℤ},0 ≤ days → days<table.sum →
    ∃ k<table.length,monthLoop month days table=some (month+k,days-(table.take k).sum)∧
      (table.take k).sum ≤ days∧days<(table.take (k+1)).sum := by
  induction table with
  | nil =>
    intro month days hpos h
    simp at h
    omega
  | cons n later ih =>
    intro month days hpos h
    rw [List.sum_cons] at h
    rw [monthLoop]
    by_cases hn : n ≤ days
    · obtain ⟨k,hk,hloop,hle,hlt⟩ := @ih (month+1) (days-n) (by omega) (by omega)
      refine ⟨k+1,Nat.succ_lt_succ hk,?_,by simp; omega,by simp; omega⟩
      rw [if_pos hn,hloop]
      simp
      omega
    · exact ⟨0,by simp,by simp [hn],hpos,by simp; omega⟩

/-- The days of a year from March before each month. -/
theorem daysInMonth_take : ∀ k<12,(daysInMonth.take (k+1)).sum ≤ (daysInMonth.take k).sum+31∧
    (daysInMonth.take k).sum=if k<11 then (commonStart (k+2) : ℤ)-59 else commonStart 1+306 := by
  decide

/-- The loop finds the month of a day and the place of the day in it. -/
theorem monthLoop_eq {year day : ℕ} (h : day ≤ 365) (hleap : day=365→IsLeap (year+1)) :
    ∃ m date : ℕ,m<12∧monthLoop 0 day daysInMonth=some ((m : ℤ),(date : ℤ))∧date<31∧
      date < monthLength (12*year+m+2)∧
        monthStart (12*year+m+2)+date+306=monthStart (12*(year+1))+day := by
  obtain ⟨m,hm,hloop,hle,hlt⟩ := @monthLoop_take daysInMonth 0 _ (Int.natCast_nonneg day)
    (Int.lt_of_le_of_lt (Int.ofNat_le.mpr h) (by decide))
  replace hm : m<12 := hm
  obtain ⟨hshort,hstart⟩ := daysInMonth_take m hm
  obtain ⟨date,hdate⟩ : ∃ date : ℕ,(day : ℤ)-(daysInMonth.take m).sum=date :=
    ⟨_,(Int.toNat_of_nonneg (by omega)).symm⟩
  rw [hdate,Int.zero_add] at hloop
  generalize (daysInMonth.take m).sum=s at hle hshort hstart hdate
  generalize hu : (daysInMonth.take (m+1)).sum=u at hlt hshort
  have hlen : monthStart (12*year+m+3)=monthStart (12*year+m+2)+monthLength (12*year+m+2) := rfl
  refine ⟨m,date,hm,hloop,by omega,?_⟩
  by_cases hten : m<10
  · have hnext : u=if m+1<11 then (commonStart (m+3) : ℤ)-59 else _ :=
      hu.symm.trans (daysInMonth_take (m+1) (by omega)).2
    have h₁ := monthStart_add year (show m+2 ≤ 12 by omega)
    have h₂ := monthStart_add year (show m+3 ≤ 12 by omega)
    have h₃ := monthStart_add year (Nat.le_refl 12)
    have hyear : commonStart 12=365 := rfl
    rw [if_pos (by omega)] at hstart hnext
    rw [Nat.mul_succ]
    rw [←Nat.add_assoc] at h₁ h₂
    by_cases hleap' : IsLeap year <;> simp [hleap'] at h₁ h₂ h₃ <;> omega
  · obtain ⟨j,rfl⟩ : ∃ j,m=j+10 := ⟨m-10,by omega⟩
    have hplace : 12*year+(j+10)+2=12*(year+1)+j := by omega
    have h₁ := monthStart_add (year+1) (show j ≤ 12 by omega)
    have h₂ := monthStart_add (year+1) (show j+1 ≤ 12 by omega)
    rw [show 12*year+(j+10)+3=12*(year+1)+(j+1) by omega,hplace] at hlen
    rw [hplace]
    have hj : j=0∨j=1 := by omega
    rcases hj with rfl | rfl <;> simp [commonStart] at h₁ h₂ hstart hlen ⊢
    · omega
    · by_cases hnext : IsLeap (year+1) <;> simp [hnext] at h₂ hleap <;> omega

/-- The fields say a date and a time of the calendar, and those are that many seconds after the
start of 2000, which was a Saturday. -/
structure StructTime.Denotes (tm : StructTime) (t : ℕ) : Prop where
  /-- The month is one of the year. -/
  month : 1 ≤ tm.tmMon∧tm.tmMon ≤ 12
  /-- The day is one of the month. -/
  mday : 1 ≤ tm.tmMday∧tm.tmMday ≤ monthLength (12*tm.tmYear+tm.tmMon-1)
  /-- The time is one of the day. -/
  time : tm.tmHour<24∧tm.tmMin<60∧tm.tmSec<60
  /-- The seconds. -/
  seconds : secondsTo (12*tm.tmYear+tm.tmMon-1) tm.tmMday tm.tmHour tm.tmMin tm.tmSec=t
  /-- The day of the week. -/
  wday : tm.tmWday=(t/86400+5)%7
  /-- The day of the year. -/
  yday : monthStart (12*tm.tmYear)+tm.tmYday=monthStart (12*tm.tmYear+tm.tmMon-1)+tm.tmMday

/-- What seconds are taken apart to: the fields of a date and a time, but for the years that
`tm_year` cannot hold. -/
theorem timeutilsSecondsSince2000ToStructTime_eq (hbits : 32 ≤ bits) {t : ℕ}
    (h : Within (bits-1) (t-leapoch)) : ∃ month mday : ℕ,1 ≤ mday∧mday ≤ monthLength month∧
      monthStart month+mday=monthStart 24000+t/86400+1∧∃ yday,
        timeutilsYearDay (month/12%65536) (month%12+1) mday=some yday∧
          timeutilsSecondsSince2000ToStructTime bits t=
            some ⟨month/12%65536,month%12+1,mday,t%86400/3600,t%86400/60%60,t%60,
              (t/86400+5)%7,yday%65536⟩ := by
  have hdays := @carry_id _ ((t : ℤ)-leapoch) (show (0 : ℤ)<86400 by decide)
  have hwday := @carry_id _ (((t : ℤ)-leapoch)/86400+2) (show (0 : ℤ)<7 by decide)
  have hleapoch : leapoch=5184000 := rfl
  obtain ⟨year,day,hmarch,hyear,hday,hday',hleap,hfirst,hstart⟩ :=
    @marchYear_eq (((t : ℤ)-leapoch)/86400) (by omega)
  obtain ⟨day,rfl⟩ : ∃ d : ℕ,day=d := ⟨_,(Int.toNat_of_nonneg hday).symm⟩
  obtain ⟨m,date,hm,hloop,hdate,hlen,hmonth⟩ :=
    @monthLoop_eq year day (by omega) (fun h => hleap (by omega))
  refine ⟨12*year+m+2,date+1,by omega,by omega,by omega,?_⟩
  obtain ⟨yday,hyday,-⟩ :=
    timeutilsYearDay_eq (12*((12*year+m+2)/12%65536)+(12*year+m+2)%12) (date+1)
  rw [show (12*((12*year+m+2)/12%65536)+(12*year+m+2)%12)/12=(12*year+m+2)/12%65536 by omega,
    show (12*((12*year+m+2)/12%65536)+(12*year+m+2)%12)%12=(12*year+m+2)%12 by omega] at hyday
  refine ⟨yday,hyday,?_⟩
  have hlow : ∀ {b n : ℕ} {z : ℤ},z=n → low b z=n%2^b := fun h => by rw [h,low_ofNat]
  have hmon : low 8 ((m : ℤ)+2)=m+2 := (hlow (n:=m+2) (by omega)).trans (by omega)
  have hyear' : low 16 (year : ℤ)=year%65536 := hlow rfl
  have hcarried : (if 12 ≤ m+2 then (low 8 (((m+2 : ℕ) : ℤ)-12),low 16 ((year%65536 : ℕ)+1))
      else (m+2,year%65536))=((12*year+m+2)%12,(12*year+m+2)/12%65536) := by
    split
    case isTrue hlast =>
      rw [hlow (n:=m-10) (by omega),hlow (Nat.cast_succ (year%65536)).symm]
      exact Prod.ext (by simp only; omega) (by simp only; omega)
    case isFalse hfirst => exact Prod.ext (by simp only; omega) (by simp only; omega)
  have hmday : low 8 ((date : ℤ)+1)=date+1 := (hlow (n:=date+1) rfl).trans (by omega)
  have hmon' : low 8 ((((12*year+m+2)%12 : ℕ) : ℤ)+1)=(12*year+m+2)%12+1 :=
    (hlow (n:=(12*year+m+2)%12+1) rfl).trans (by omega)
  rw [timeutilsSecondsSince2000ToStructTime,signed_eq h (by omega),hdays]
  simp only [hwday,hmarch,hloop,hmon,hyear',hcarried,hmday,hmon',hyday,Option.bind_eq_bind,
    Option.bind_some,Option.some_inj,StructTime.mk.injEq,true_and]
  have hnonneg := Int.emod_nonneg ((t : ℤ)-leapoch) (show (86400 : ℤ)≠0 by decide)
  rw [Int.tdiv_eq_ediv_of_nonneg hnonneg,Int.tdiv_eq_ediv_of_nonneg hnonneg,
    Int.tmod_eq_emod_of_nonneg hnonneg,Int.tmod_eq_emod_of_nonneg (by omega)]
  exact ⟨(hlow (n:=t%86400/3600) (by omega)).trans (by omega),
    (hlow (n:=t%86400/60%60) (by omega)).trans (by omega),
    (hlow (n:=t%60) (by omega)).trans (by omega),
    (hlow (n:=(t/86400+5)%7) (by omega)).trans (by omega),hlow rfl⟩

/-- The fields of a date fit, and their seconds are those that they denote. -/
theorem StructTime.Denotes.mktime (hbits : 32 ≤ bits) {tm : StructTime} {t : ℕ}
    (h : tm.Denotes t) (hyear : tm.tmYear<65536) (ht : (t : ℤ)<2^bits) :
    ∃ enough,∀ fuel,enough ≤ fuel → timeutilsMktime bits fuel tm.tmYear tm.tmMon tm.tmMday
      tm.tmHour tm.tmMin tm.tmSec=some t := by
  obtain ⟨hmon,hmon'⟩ := h.month
  obtain ⟨hmday,hmday'⟩ := h.mday
  obtain ⟨hhour,hmin,hsec⟩ := h.time
  have hseconds := h.seconds
  have hlen := monthLength_bounds (12*tm.tmYear+tm.tmMon-1)
  obtain ⟨hword,hdouble,hcast⟩ := word_sizes hbits
  have hmonth : (12*(tm.tmYear : ℤ)+tm.tmMon-1).toNat=12*tm.tmYear+tm.tmMon-1 := by omega
  have hfits : Fits bits tm.tmYear tm.tmMon tm.tmMday tm.tmHour tm.tmMin tm.tmSec := by
    simp only [Fits,Within]
    rw [Int.tdiv_eq_ediv_of_nonneg (by omega),Int.tdiv_eq_ediv_of_nonneg (by omega),
      Int.tdiv_eq_ediv_of_nonneg (by omega),Int.tdiv_eq_ediv_of_nonneg (by omega)]
    omega
  obtain ⟨enough,hrun⟩ := timeutilsMktime_eq hbits hfits (by rw [hmonth,hseconds]; positivity)
    (by rw [hmonth,hseconds]; exact ht)
  refine ⟨enough,fun fuel hfuel => ?_⟩
  rw [hrun fuel hfuel,hmonth,hseconds,Int.toNat_natCast]

end MicroPython.TimeUtils
