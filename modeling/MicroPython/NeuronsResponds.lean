import Mathlib.Algebra.BigOperators.Group.Finset.Piecewise
import MicroPython.NeuronsNodes

/-!
# Responses of the library

For each response of a descriptor, the place of its data in the buffer for responses is stored
behind its types, and the buffer is as long as all data together. Here the table of the types is
memory of a certain size, and the places are compared with the sizes of the data.
-/

namespace MicroPython.NeuronsResponds

open UInt8 List NeuronsCommands NeuronsNodes

/-- What goes wrong. -/
inductive RespondFault where
  /-- A write past `respond_data_type`. -/
  | respondDataType
  deriving DecidableEq

/-- `respond_data_type_num` -/
def respondDataTypeNum (respondNum : UInt8) : UInt8 := respondNum*7+1

/-- The loop over the responses, with the number of bytes that the table has. -/
def fillMemory (bytes : ℕ→UInt8) (size : ℕ) :
    ℕ→ℕ→(ℕ→UInt8)→UInt8→Except RespondFault (Option ((ℕ→UInt8)×UInt8))
  | 0,_,table,off => .ok (some (table,off))
  | n+1,k,table,off =>
    if size≤(k+1)*singleRespondLen then .error .respondDataType
    else
      let table := copyItem table bytes k off
      match itemOffsets table (k*singleRespondLen+1) 5 1 off with
      | none => .ok none
      | some off => fillMemory bytes size n (k+1) table off

/-- `neurons_engine_get_respond_info_from_lib_t` with the writes to its table. -/
def respondInfoFromLib (heap : Site→Bool) (bytes : ℕ→UInt8) (special : Option UInt8) :
    Except RespondFault (Option (ℕ→UInt8)×RespondData) :=
  let respondNum := special.getD (countResponds bytes respondItemMax 0)
  if heap .respondDataType then
    -- the number of responses is the first byte
    if (respondDataTypeNum respondNum).toNat=0 then .error .respondDataType
    else
      match fillMemory bytes (respondDataTypeNum respondNum).toNat respondNum.toNat 0
        (fun _ => respondNum) 0 with
      | .error e => .error e
      | .ok none => .ok (none,⟨0,false⟩)
      | .ok (some (table,size)) =>
        if size≠0∧heap .respondDataStore=false then .ok (none,⟨0,false⟩)
        else .ok (some table,⟨size,heap .respondDataStore⟩)
  else .ok (none,⟨0,false⟩)

/-! ## What a descriptor means -/

/-- The byte at a place of the types of a response, of which there are five. -/
def typeAt (bytes : ℕ→UInt8) (k j : ℕ) : UInt8 := bytes (k*recCmdItemPerLen+2+(j+1))

/-- What the byte at a place of the types is. -/
inductive Role where
  | type
  /-- It says how often the type before it is taken. -/
  | number
  | none
  deriving DecidableEq

/-- A byte that can be a type is one unless it is zero. -/
def Role.start (type : UInt8) : Role := if type=0 then .none else .type

/-- The role of the byte at a place. -/
def role (bytes : ℕ→UInt8) (k : ℕ) : ℕ→Role
  | 0 => .start (typeAt bytes k 0)
  | j+1 =>
    match role bytes k j with
    | .type => if Alterable (typeAt bytes k j) then .number else .start (typeAt bytes k (j+1))
    | .number => .start (typeAt bytes k (j+1))
    | .none => .none

/-- The places of the types of a response. -/
def typePlaces (bytes : ℕ→UInt8) (k : ℕ) : Finset ℕ :=
  (Finset.range 5).filter fun j => role bytes k j=.type

/-- How often the byte at a place is taken, as a type. -/
def typeNumber (bytes : ℕ→UInt8) (k j : ℕ) : ℕ :=
  let type := typeAt bytes k j
  if Alterable type then if j=4 then 0 else (typeAt bytes k (j+1)).toNat
  else if type&&&0xf0=0 then 1 else ((type&&&0xf0)>>>4).toNat

/-- The number of bytes of the data for a place. -/
def placeSize (bytes : ℕ→UInt8) (k j : ℕ) : ℕ :=
  typeNumber bytes k j*(firmataGetDataTypeLenthT (typeAt bytes k j&&&0x0f)).toNat

/-- The number of bytes of all data of a response. -/
def respondSize (bytes : ℕ→UInt8) (k : ℕ) : ℕ := ∑ j∈typePlaces bytes k,placeSize bytes k j

/-- The number of bytes of the data of all responses before one. -/
def sizeBefore (bytes : ℕ→UInt8) (k : ℕ) : ℕ := ∑ i∈Finset.range k,respondSize bytes i

/-- The number of responses: a general block has those before the first one that is marked, five
at most. -/
def respondCount (bytes : ℕ→UInt8) : Option UInt8→ℕ
  | none =>
    ((List.range respondItemMax).find? fun i =>
      bytes (recCmdItemPerLen*i+2)=resCmdOverFlagData).getD respondItemMax
  | some respondNum => respondNum.toNat

/-- The place that is stored for a response. -/
def valueOffset (table : ℕ→UInt8) (k : ℕ) : ℕ := (table ((k+1)*singleRespondLen)).toNat

/-- The table and the buffer are those of the responses. -/
structure Laid (bytes : ℕ→UInt8) (special : Option UInt8) (table : ℕ→UInt8)
    (data : RespondData) : Prop where
  count : (table 0).toNat=respondCount bytes special
  /-- The data of a response is behind those of the responses before. -/
  offset : ∀ k < respondCount bytes special,valueOffset table k=sizeBefore bytes k
  total : data.bufferSize.toNat=sizeBefore bytes (respondCount bytes special)
  /-- There is a buffer if it has to hold something. -/
  buffer : data.bufferSize=0∨data.buffer=true
  /-- The data of two responses does not overlap. -/
  apart : ∀ k l,k < l → l < respondCount bytes special →
    valueOffset table k+respondSize bytes k≤valueOffset table l
  /-- The data of a response is in the buffer. -/
  inside : ∀ k < respondCount bytes special,
    valueOffset table k+respondSize bytes k≤data.bufferSize.toNat

/-- How many places are looked at, for every response: the bytes of the first response before a
zero, with its id and without its last place. -/
def placesRead (bytes : ℕ→UInt8) : ℕ :=
  ((List.range 5).takeWhile fun j => bytes (2+j)≠0).length

/-- What the bytes that are no types add when they are looked at. -/
def wronglyAdded (bytes : ℕ→UInt8) (k : ℕ) : ℕ :=
  ∑ j∈Finset.range (placesRead bytes)\typePlaces bytes k,placeSize bytes k j

/-- What the types add that are not looked at. -/
def leftOut (bytes : ℕ→UInt8) (k : ℕ) : ℕ :=
  ∑ j∈typePlaces bytes k\Finset.range (placesRead bytes),placeSize bytes k j

/-- The format of a response is accepted. -/
def Accepted (bytes : ℕ→UInt8) (k : ℕ) : Prop :=
  placesRead bytes=5 → ¬Alterable (typeAt bytes k 4)

/-- A descriptor whose responses are laid out right. -/
structure Regular (bytes : ℕ→UInt8) (special : Option UInt8) : Prop where
  /-- A general block has at most four responses. -/
  marked : special=none → ∃ i < respondItemMax,bytes (recCmdItemPerLen*i+2)=resCmdOverFlagData
  /-- The table has at most 255 bytes. -/
  few : respondCount bytes special≤36
  /-- All data has at most 255 bytes. -/
  small : sizeBefore bytes (respondCount bytes special) < 256
  accepted : ∀ k < respondCount bytes special,Accepted bytes k
  /-- What is added wrongly for a response is what is left out. -/
  even : ∀ k < respondCount bytes special,wronglyAdded bytes k%256=leftOut bytes k%256

/-! ## One response -/

/-- The bytes of the table that are looked at for a response are those of the descriptor. -/
structure Copied (bytes table : ℕ→UInt8) (k : ℕ) : Prop where
  /-- The first response is at the beginning. -/
  first : ∀ j < 5,table (j+1)=bytes (2+j)
  types : ∀ j < 5,table (k*singleRespondLen+1+(j+1))=typeAt bytes k j

/-- How many places are looked at from a place on. -/
def placesFrom (bytes : ℕ→UInt8) (j n : ℕ) : ℕ :=
  ((List.range' j n).takeWhile fun i => bytes (2+i)≠0).length

variable (bytes : ℕ→UInt8) (respondNum : UInt8)

/-- One place is looked at after the other. -/
theorem placesFrom_succ (j n : ℕ) : placesFrom bytes j (n+1)=
    if bytes (2+j)=0 then 0 else placesFrom bytes (j+1) n+1 := by
  rw [placesFrom,List.range'_succ,takeWhile_cons]
  by_cases hend : bytes (2+j)=0
  · have hstop : ¬decide (bytes (2+j)≠0)=true := fun h => of_decide_eq_true h hend
    rw [if_pos hend,if_neg hstop]
    rfl
  · rw [if_neg hend,if_pos (decide_eq_true hend)]
    rfl

/-- What the places add. -/
def placesSize (bytes : ℕ→UInt8) (k j n : ℕ) : ℕ :=
  ((List.range' j n).map (placeSize bytes k)).sum

/-- Numbers of eight bits are added. -/
theorem add_ofNat (off : UInt8) (a b : ℕ) : off+.ofNat a+.ofNat b=off+.ofNat (a+b) := by
  rw [UInt8.add_assoc,UInt8.ofNat_add]

variable {table : ℕ→UInt8} {k j size : ℕ}

/-- What a place adds that is no alterable type in the last place. -/
theorem itemOffsets_step {bytes : ℕ→UInt8} (h : Copied bytes table k)
    (hj : j < 5) (hne : bytes (2+j)≠0) (hlast : Alterable (typeAt bytes k j) → j≠4) (n : ℕ)
    (off : UInt8) :
    itemOffsets table (k*singleRespondLen+1) (n+1) (j+1) off=
      itemOffsets table (k*singleRespondLen+1) n (j+2) (off+.ofNat (placeSize bytes k j)) := by
  have hfirst := h.first j hj
  have htype := h.types j hj
  rw [itemOffsets,if_neg (by rw [hfirst]; exact hne)]
  simp only [htype]
  rw [placeSize,typeNumber]
  by_cases halter : Alterable (typeAt bytes k j)
  · have hj' := hlast halter
    have hnext := h.types (j+1) (by omega)
    simp only [if_pos halter,if_neg hj']
    rw [if_neg (by omega),UInt8.ofNat_mul,UInt8.ofNat_toNat,UInt8.ofNat_toNat,←hnext]
    rfl
  · simp only [if_neg halter]
    by_cases hone : typeAt bytes k j&&&0xf0=0
    · rw [if_pos hone,if_pos hone,Nat.one_mul,UInt8.ofNat_toNat]
    · rw [if_neg hone,if_neg hone,UInt8.ofNat_mul,UInt8.ofNat_toNat,UInt8.ofNat_toNat]

/-- The offset behind a response, from a place on. -/
theorem itemOffsets_eq {bytes : ℕ→UInt8} (h : Copied bytes table k) :
    ∀ n j off,j+n=5 → itemOffsets table (k*singleRespondLen+1) n (j+1) off=
      if j+placesFrom bytes j n=5∧0 < n∧Alterable (typeAt bytes k 4) then none
      else some (off+.ofNat (placesSize bytes k j (placesFrom bytes j n))) := by
  intro n
  induction n with
  | zero =>
    intro j off hj
    rw [itemOffsets,if_neg fun hlast => absurd hlast.2.1 (Nat.lt_irrefl 0)]
    change some off=some (off+0)
    rw [UInt8.add_zero]
  | succ n ih =>
    intro j off hj
    have hlt : j < 5 := by omega
    rw [placesFrom_succ]
    by_cases hend : bytes (2+j)=0
    · rw [itemOffsets,if_pos ((h.first j hlt).trans hend),if_pos hend,if_neg (by omega)]
      change some off=some (off+0)
      rw [UInt8.add_zero]
    rw [if_neg hend]
    by_cases hlast : j=4∧Alterable (typeAt bytes k j)
    · obtain ⟨heq,halter⟩ := hlast
      cases heq
      have hn : n=0 := by omega
      cases hn
      have hgo : ¬table (4+1)=0 := by
        rw [h.first 4 hlt]
        exact hend
      have hall : 4+(placesFrom bytes (4+1) 0+1)=5∧0 < 0+1∧Alterable (typeAt bytes k 4) :=
        ⟨rfl,Nat.one_pos,halter⟩
      rw [itemOffsets,if_neg hgo,if_pos hall]
      simp only [h.types 4 hlt,if_pos halter]
      rfl
    · rw [itemOffsets_step h hlt hend (fun halter heq => hlast ⟨heq,halter⟩) n off,
        ih (j+1) _ (by omega),placesSize,placesSize,List.range'_succ,map_cons,sum_cons,
        add_ofNat]
      have hiff : (j+1+placesFrom bytes (j+1) n=5∧0 < n∧Alterable (typeAt bytes k 4))↔
          (j+(placesFrom bytes (j+1) n+1)=5∧0 < n+1∧Alterable (typeAt bytes k 4)) := by
        constructor
        · exact fun hall => ⟨by omega,by omega,hall.2.2⟩
        · refine fun hall => ⟨by omega,?_,hall.2.2⟩
          refine Nat.pos_of_ne_zero fun hn => hlast ?_
          have heq : j=4 := by omega
          exact ⟨heq,heq▸hall.2.2⟩
      exact if_congr hiff rfl rfl

/-- What the places of a response add that are looked at. -/
def addedSize (bytes : ℕ→UInt8) (k : ℕ) : ℕ :=
  ∑ j∈Finset.range (placesRead bytes),placeSize bytes k j

/-- The offset behind a response. -/
theorem itemOffsets_respond {bytes : ℕ→UInt8} (h : Copied bytes table k) (off : UInt8) :
    itemOffsets table (k*singleRespondLen+1) 5 1 off=
      if placesRead bytes=5∧Alterable (typeAt bytes k 4) then none
      else some (off+.ofNat (addedSize bytes k)) := by
  have hread : placesFrom bytes 0 5=placesRead bytes := by
    rw [placesFrom,placesRead,range_eq_range']
  have hsize : placesSize bytes k 0 (placesRead bytes)=addedSize bytes k := by
    rw [placesSize,addedSize,←range_eq_range']
    rfl
  refine (itemOffsets_eq h 5 0 off rfl).trans ?_
  rw [hread,hsize,Nat.zero_add]
  refine if_congr ?_ rfl rfl
  exact and_congr_right fun _ => and_iff_right (by decide)

/-- What is added for a response differs from its size by what is added wrongly and what is left
out. -/
theorem addedSize_add (k : ℕ) :
    addedSize bytes k+leftOut bytes k=respondSize bytes k+wronglyAdded bytes k := by
  have hread := Finset.sum_inter_add_sum_sdiff (Finset.range (placesRead bytes))
    (typePlaces bytes k) (placeSize bytes k)
  have htypes := Finset.sum_inter_add_sum_sdiff (typePlaces bytes k)
    (Finset.range (placesRead bytes)) (placeSize bytes k)
  rw [Finset.inter_comm] at htypes
  rw [addedSize,leftOut,respondSize,wronglyAdded]
  omega

/-! ## All responses -/

/-- What is added for the responses before one. -/
def addedBefore (bytes : ℕ→UInt8) (k : ℕ) : ℕ := ∑ i∈Finset.range k,addedSize bytes i

/-- A table with some responses. -/
structure Filled (bytes : ℕ→UInt8) (respondNum : UInt8) (k : ℕ) (table : ℕ→UInt8)
    (off : UInt8) : Prop where
  count : table 0=respondNum
  offset : ∀ i < k,table ((i+1)*singleRespondLen)=.ofNat (addedBefore bytes i)
  first : 0 < k → ∀ j < 5,table (j+1)=bytes (2+j)
  /-- The offset behind the responses. -/
  off : off=.ofNat (addedBefore bytes k)

theorem copyItem_item (table bytes : ℕ→UInt8) (k : ℕ) (off : UInt8) (h : j < 6) :
    copyItem table bytes k off (k*singleRespondLen+1+j)=bytes (k*recCmdItemPerLen+2+j) := by
  have hlen : recCmdItemPerLen=6 := rfl
  rw [copyItem,if_pos (by omega),Nat.add_sub_cancel_left]

theorem copyItem_off (table bytes : ℕ→UInt8) (k : ℕ) (off : UInt8) :
    copyItem table bytes k off ((k+1)*singleRespondLen)=off := by
  have hlen : recCmdItemPerLen=6 := rfl
  have hnext : (k+1)*singleRespondLen=k*singleRespondLen+7 := Nat.succ_mul k 7
  rw [copyItem,if_neg (by omega),if_pos rfl]

theorem copyItem_before (table bytes : ℕ→UInt8) (k : ℕ) (off : UInt8)
    (h : j≤k*singleRespondLen) : copyItem table bytes k off j=table j := by
  have hnext : (k+1)*singleRespondLen=k*singleRespondLen+7 := Nat.succ_mul k 7
  rw [copyItem,if_neg (by omega),if_neg (by omega)]

/-- With the next item, its bytes and the first ones are in the table. -/
theorem Filled.copied {bytes table : ℕ→UInt8} {respondNum off : UInt8} {k : ℕ}
    (h : Filled bytes respondNum k table off) : Copied bytes (copyItem table bytes k off) k := by
  refine ⟨fun j hj => ?_,fun j hj => copyItem_item table bytes k off (by omega)⟩
  cases k with
  | zero =>
    have hitem := copyItem_item table bytes 0 off (show j < 6 by omega)
    rw [Nat.zero_mul,Nat.zero_mul,Nat.zero_add,Nat.zero_add,Nat.add_comm 1 j] at hitem
    exact hitem
  | succ k =>
    have hnext : (k+1)*singleRespondLen=k*singleRespondLen+7 := Nat.succ_mul k 7
    rw [copyItem_before table bytes (k+1) off (by omega)]
    exact h.first (Nat.succ_pos k) j hj

/-- A table with one more response. -/
theorem Filled.next {bytes : ℕ→UInt8} {respondNum off : UInt8}
    (h : Filled bytes respondNum k table off) :
    Filled bytes respondNum (k+1) (copyItem table bytes k off)
      (off+.ofNat (addedSize bytes k)) := by
  refine ⟨?_,fun i hi => ?_,fun _ => h.copied.first,?_⟩
  · rw [copyItem_before table bytes k off (Nat.zero_le _)]
    exact h.count
  · cases Nat.lt_succ_iff_lt_or_eq.mp hi with
    | inl hlt =>
      rw [copyItem_before table bytes k off (Nat.mul_le_mul_right _ hlt)]
      exact h.offset i hlt
    | inr heq =>
      rw [heq,copyItem_off]
      exact h.off
  · rw [h.off,addedBefore,addedBefore,Finset.sum_range_succ,ofNat_add]

/-- Responses that fit the table and are accepted are filled in. -/
theorem fillMemory_ok {bytes : ℕ→UInt8} {respondNum : UInt8} : ∀ n k table off,
    Filled bytes respondNum k table off →
      (∀ i,k ≤ i → i < k+n → (i+1)*singleRespondLen < size∧Accepted bytes i) →
        ∃ t o,fillMemory bytes size n k table off=.ok (some (t,o))∧
          Filled bytes respondNum (k+n) t o := by
  intro n
  induction n with
  | zero => exact fun k table off h _ => ⟨table,off,rfl,h⟩
  | succ n ih =>
    intro k table off h hall
    obtain ⟨hfits,haccepted⟩ := hall k (Nat.le_refl k) (by omega)
    obtain ⟨t,o,hfill,hend⟩ := ih (k+1) _ _ h.next fun i hle hlt =>
      hall i (by omega) (by omega)
    refine ⟨t,o,?_,?_⟩
    · have hgood : ¬(placesRead bytes=5∧Alterable (typeAt bytes k 4)) :=
        fun hbad => haccepted hbad.1 hbad.2
      rw [fillMemory,if_neg (Nat.not_le.mpr hfits)]
      simp only [itemOffsets_respond h.copied,if_neg hgood]
      exact hfill
    · rw [Nat.add_right_comm] at hend
      exact hend

/-- Responses that are filled in fit the table and are accepted. -/
theorem fits_of_fillMemory {bytes : ℕ→UInt8} {respondNum : UInt8}
    {r : (ℕ→UInt8)×UInt8} : ∀ n k table off,Filled bytes respondNum k table off →
      fillMemory bytes size n k table off=.ok (some r) →
        ∀ i,k ≤ i → i < k+n → (i+1)*singleRespondLen < size∧Accepted bytes i := by
  intro n
  induction n with
  | zero =>
    intro k table off h hfill i hle hlt
    omega
  | succ n ih =>
    intro k table off h hfill i hle hlt
    rw [fillMemory] at hfill
    split at hfill
    case isTrue => cases hfill
    case isFalse hfits =>
      simp only [itemOffsets_respond h.copied] at hfill
      by_cases hbad : placesRead bytes=5∧Alterable (typeAt bytes k 4)
      · rw [if_pos hbad] at hfill
        cases hfill
      · rw [if_neg hbad] at hfill
        cases Nat.eq_or_lt_of_le hle with
        | inl heq =>
          cases heq
          exact ⟨Nat.not_le.mp hfits,fun hread halter => hbad ⟨hread,halter⟩⟩
        | inr hnext => exact ih (k+1) _ _ h.next hfill i hnext (by omega)

/-! ## The descriptor -/

/-- `respond_num` -/
def respondNumber (bytes : ℕ→UInt8) (special : Option UInt8) : UInt8 :=
  special.getD (countResponds bytes respondItemMax 0)

/-- The loop that looks for the mark stops at the first. -/
theorem countResponds_eq : ∀ n i,countResponds bytes n i=
    .ofNat (((List.range' i n).find? fun i =>
      bytes (recCmdItemPerLen*i+2)=resCmdOverFlagData).getD 0) := by
  intro n
  induction n with
  | zero => exact fun _ => rfl
  | succ n ih =>
    intro i
    rw [countResponds,List.range'_succ,List.find?_cons]
    by_cases hmark : bytes (recCmdItemPerLen*i+2)=resCmdOverFlagData
    · rw [if_pos hmark,decide_eq_true hmark]
      rfl
    · rw [if_neg hmark,decide_eq_false hmark]
      exact ih (i+1)

/-- The responses are counted right exactly when a general block has a mark. -/
theorem respondNumber_iff (special : Option UInt8) :
    (respondNumber bytes special).toNat=respondCount bytes special↔
      (special=none → ∃ i < respondItemMax,bytes (recCmdItemPerLen*i+2)=resCmdOverFlagData) := by
  cases special with
  | some respondNum => exact iff_of_true rfl fun h => nomatch h
  | none =>
    rw [respondNumber,Option.getD_none,countResponds_eq,respondCount,←range_eq_range']
    cases hfind : (List.range respondItemMax).find? fun i =>
        decide (bytes (recCmdItemPerLen*i+2)=resCmdOverFlagData) with
    | none =>
      refine iff_of_false (by decide) fun h => ?_
      obtain ⟨i,hi,hmark⟩ := h rfl
      have hnone := List.find?_eq_none.mp hfind i (mem_range.mpr hi)
      exact hnone (decide_eq_true hmark)
    | some i =>
      have hi : i < respondItemMax := mem_range.mp (mem_of_find?_eq_some hfind)
      have hmark := of_decide_eq_true (@List.find?_some _ (fun i =>
        decide (bytes (recCmdItemPerLen*i+2)=resCmdOverFlagData)) _ _ hfind)
      refine iff_of_true ?_ fun _ => ⟨i,hi,hmark⟩
      have hmax : respondItemMax=5 := rfl
      rw [Option.getD_some,Option.getD_some,toNat_ofNat']
      omega

/-- The size of the table, up to its eight bits. -/
theorem respondDataTypeNum_toNat :
    (respondDataTypeNum respondNum).toNat=(respondNum.toNat*7+1)%256 := by
  have hsum : (respondDataTypeNum respondNum).toNat=(respondNum.toNat*7%2^8+1)%2^8 := by
    rw [respondDataTypeNum,UInt8.toNat_add,UInt8.toNat_mul]
    rfl
  omega

/-- All responses fit the table exactly when there are at most 36. -/
theorem fits_iff :
    ((respondDataTypeNum respondNum).toNat≠0∧∀ i < respondNum.toNat,
      (i+1)*singleRespondLen < (respondDataTypeNum respondNum).toNat)↔respondNum.toNat≤36 := by
  have hlen : singleRespondLen=7 := rfl
  rw [respondDataTypeNum_toNat,hlen]
  constructor
  · intro h
    refine Decidable.byContradiction fun hmany => ?_
    have hlast := h.2 (respondNum.toNat-1) (by omega)
    omega
  · exact fun h => ⟨by omega,fun i hi => by omega⟩

/-- A table and its buffer are returned exactly when there is memory, the responses fit the table
and they are accepted. -/
theorem respondInfo_some_iff (heap : Site→Bool) (bytes : ℕ→UInt8) (special : Option UInt8)
    (table : ℕ→UInt8) (data : RespondData) :
    respondInfoFromLib heap bytes special=.ok (some table,data)↔
      heap .respondDataType=true∧(data.bufferSize=0∨heap .respondDataStore=true)∧
        data.buffer=heap .respondDataStore∧
          (respondDataTypeNum (respondNumber bytes special)).toNat≠0∧
          fillMemory bytes (respondDataTypeNum (respondNumber bytes special)).toNat
            (respondNumber bytes special).toNat 0 (fun _ => respondNumber bytes special) 0=
              .ok (some (table,data.bufferSize)) := by
  rw [respondInfoFromLib]
  change (if heap .respondDataType=true then
    if (respondDataTypeNum (respondNumber bytes special)).toNat=0 then _ else
      match fillMemory bytes (respondDataTypeNum (respondNumber bytes special)).toNat
        (respondNumber bytes special).toNat 0 (fun _ => respondNumber bytes special) 0 with
      | .error e => _
      | .ok none => _
      | .ok (some (table,size)) => _ else _)=_↔_
  by_cases hheap : heap .respondDataType=true
  swap
  · rw [if_neg hheap]
    refine iff_of_false (fun h => ?_) fun h => hheap h.1
    cases h
  rw [if_pos hheap]
  by_cases hsize : (respondDataTypeNum (respondNumber bytes special)).toNat=0
  · rw [if_pos hsize]
    exact iff_of_false (fun h => nomatch h) fun h => h.2.2.2.1 hsize
  rw [if_neg hsize]
  cases fillMemory bytes (respondDataTypeNum (respondNumber bytes special)).toNat
    (respondNumber bytes special).toNat 0 (fun _ => respondNumber bytes special) 0 with
  | error e => exact iff_of_false (fun h => nomatch h) fun h => nomatch h.2.2.2.2
  | ok r =>
    cases r with
    | none =>
      refine iff_of_false (fun h => ?_) fun h => nomatch h.2.2.2.2
      cases h
    | some r =>
      obtain ⟨t,size⟩ := r
      by_cases hstore : size≠0∧heap .respondDataStore=false
      · simp only [if_pos hstore]
        refine iff_of_false (fun h => ?_) fun h => ?_
        · cases h
        · obtain ⟨-,hroom,-,-,hfill⟩ := h
          cases hfill
          cases hroom with
          | inl hzero => exact hstore.1 hzero
          | inr htrue =>
            rw [htrue] at hstore
            cases hstore.2
      · simp only [if_neg hstore]
        constructor
        · intro h
          cases h
          refine ⟨hheap,?_,rfl,hsize,rfl⟩
          by_cases hzero : size=0
          · exact .inl hzero
          · exact .inr (Bool.eq_true_of_not_eq_false fun hfalse => hstore ⟨hzero,hfalse⟩)
        · rintro ⟨-,-,hbuffer,-,hfill⟩
          cases hfill
          rw [←hbuffer]

/-- No response is in the table at first. -/
theorem filled_start :
    Filled bytes respondNum 0 (fun _ => respondNum) 0 :=
  ⟨rfl,fun i h => absurd h (Nat.not_lt_zero i),fun h => absurd h (Nat.lt_irrefl 0),rfl⟩

theorem sizeBefore_mono {l : ℕ} (h : k≤l) : sizeBefore bytes k ≤ sizeBefore bytes l := by
  induction h with
  | refl => exact Nat.le_refl _
  | @step l h ih =>
    rw [sizeBefore,sizeBefore,Finset.sum_range_succ]
    exact Nat.le_trans ih (Nat.le_add_right _ _)

/-- What is added agrees with the sizes up to a response exactly when what is added wrongly for
each is what is left out. -/
theorem added_iff (n : ℕ) : (∀ k≤n,addedBefore bytes k%256=sizeBefore bytes k)↔
      sizeBefore bytes n < 256∧∀ k < n,wronglyAdded bytes k%256=leftOut bytes k%256 := by
  constructor
  · intro h
    refine ⟨?_,fun k hk => ?_⟩
    · rw [←h n (Nat.le_refl n)]
      exact Nat.mod_lt _ (by decide)
    · have hk := h k (Nat.le_of_lt hk)
      have hnext := h (k+1) ‹_›
      have hadd := addedSize_add bytes k
      rw [addedBefore,sizeBefore,Finset.sum_range_succ,Finset.sum_range_succ] at hnext
      rw [addedBefore,sizeBefore] at hk
      omega
  · rintro ⟨hsmall,heven⟩ k hle
    have hlt : sizeBefore bytes k < 256 := Nat.lt_of_le_of_lt (sizeBefore_mono bytes hle) hsmall
    have hmod : addedBefore bytes k%256=sizeBefore bytes k%256 := by
      clear hlt
      induction k with
      | zero => rfl
      | succ k ih =>
        have hk := ih (Nat.le_of_lt hle)
        have hsame := heven k hle
        have hadd := addedSize_add bytes k
        rw [addedBefore,sizeBefore] at hk
        rw [addedBefore,sizeBefore,Finset.sum_range_succ,Finset.sum_range_succ]
        omega
    rw [hmod,Nat.mod_eq_of_lt hlt]

/-- Offsets and a size that are the sizes of the data make regions that are apart and inside. -/
theorem laid_of_offsets {bytes : ℕ→UInt8} {special : Option UInt8} {data : RespondData}
    (hcount : (table 0).toNat=respondCount bytes special)
    (hoffset : ∀ k < respondCount bytes special,valueOffset table k=sizeBefore bytes k)
    (htotal : data.bufferSize.toNat=sizeBefore bytes (respondCount bytes special))
    (hbuffer : data.bufferSize=0∨data.buffer=true) : Laid bytes special table data := by
  have hbehind : ∀ k < respondCount bytes special,
      valueOffset table k+respondSize bytes k=sizeBefore bytes (k+1) := by
    intro k hk
    rw [hoffset k hk,sizeBefore,sizeBefore,Finset.sum_range_succ]
  refine ⟨hcount,hoffset,htotal,hbuffer,fun k l hkl hl => ?_,fun k hk => ?_⟩
  · rw [hbehind k (Nat.lt_trans hkl hl),hoffset l hl]
    exact sizeBefore_mono bytes hkl
  · rw [hbehind k hk,htotal]
    exact sizeBefore_mono bytes hk

/-- The responses of a descriptor are laid out right exactly when there is memory and the
descriptor is regular. -/
theorem respondInfo_laid_iff (heap : Site→Bool) (bytes : ℕ→UInt8) (special : Option UInt8) :
    (∃ table data,respondInfoFromLib heap bytes special=.ok (some table,data)∧
      Laid bytes special table data)↔
      heap .respondDataType=true∧
        (sizeBefore bytes (respondCount bytes special)=0∨heap .respondDataStore=true)∧
          Regular bytes special := by
  have hstart := filled_start bytes (respondNumber bytes special)
  constructor
  · rintro ⟨table,data,hinfo,hlaid⟩
    obtain ⟨htype,hstore,-,hsize,hfill⟩ :=
      (respondInfo_some_iff heap bytes special table data).mp hinfo
    have hall := fits_of_fillMemory _ 0 _ _ hstart hfill
    obtain ⟨t,o,hfill',hfilled⟩ := fillMemory_ok _ 0 _ _ hstart hall
    rw [hfill] at hfill'
    cases hfill'
    rw [Nat.zero_add] at hfilled
    have hnum : (respondNumber bytes special).toNat=respondCount bytes special := by
      rw [←hlaid.count,hfilled.count]
    have hfew := (fits_iff (respondNumber bytes special)).mp
      ⟨hsize,fun i hi => (hall i (Nat.zero_le i) (by omega)).1⟩
    have hadded : ∀ k ≤ respondCount bytes special,addedBefore bytes k%256=sizeBefore bytes k := by
      intro k hk
      cases Nat.lt_or_eq_of_le hk with
      | inl hlt =>
        rw [←hlaid.offset k hlt,valueOffset,hfilled.offset k (hnum▸hlt)]
        exact UInt8.toNat_ofNat'.symm
      | inr heq =>
        rw [heq,←hlaid.total,hfilled.off,hnum]
        exact UInt8.toNat_ofNat'.symm
    obtain ⟨hsmall,heven⟩ := (added_iff bytes _).mp hadded
    refine ⟨htype,?_,(respondNumber_iff bytes special).mp hnum,hnum▸hfew,hsmall,
      fun k hk => (hall k (Nat.zero_le k) (by omega)).2,heven⟩
    refine hstore.imp_left fun hzero => ?_
    rw [←hlaid.total,hzero]
    rfl
  · rintro ⟨htype,hstore,hregular⟩
    have hnum := (respondNumber_iff bytes special).mpr hregular.marked
    have hfits := (fits_iff (respondNumber bytes special)).mpr (hnum▸hregular.few)
    have hadded := (added_iff bytes _).mpr ⟨hregular.small,hregular.even⟩
    obtain ⟨t,o,hfill,hfilled⟩ := fillMemory_ok (respondNumber bytes special).toNat 0 _ _ hstart
      fun i _ hi => ⟨hfits.2 i (by omega),hregular.accepted i (by omega)⟩
    rw [Nat.zero_add] at hfilled
    have htotal : o.toNat=sizeBefore bytes (respondCount bytes special) := by
      rw [hfilled.off,hnum,UInt8.toNat_ofNat']
      exact hadded _ (Nat.le_refl _)
    have hroom : o=0∨heap .respondDataStore=true := hstore.imp_left fun hzero =>
      UInt8.toNat_inj.mp (htotal.trans hzero)
    refine ⟨t,⟨o,heap .respondDataStore⟩,(respondInfo_some_iff heap bytes special t _).mpr
      ⟨htype,hroom,rfl,hfits.1,hfill⟩,laid_of_offsets ?_ (fun k hk => ?_) htotal hroom⟩
    · rw [hfilled.count,hnum]
    · rw [valueOffset,hfilled.offset k (hnum▸hk),UInt8.toNat_ofNat']
      exact hadded k (Nat.le_of_lt hk)

/-- With no write past the table, the loop fills it in as without its size. -/
theorem fillTable_of_fillMemory {bytes : ℕ→UInt8} {r : Option ((ℕ→UInt8)×UInt8)} :
    ∀ n k table off,fillMemory bytes size n k table off=.ok r →
      fillTable bytes n k table off=r := by
  intro n
  induction n with
  | zero =>
    intro k table off h
    cases h
    rfl
  | succ n ih =>
    intro k table off h
    rw [fillMemory] at h
    split at h
    case isTrue => cases h
    case isFalse =>
      rw [fillTable]
      cases hitem : itemOffsets (copyItem table bytes k off) (k*singleRespondLen+1) 5 1 off with
      | none =>
        simp only [hitem] at h
        cases h
        rfl
      | some off' =>
        simp only [hitem] at h
        exact ih (k+1) _ _ h

/-- With no write past the table, the result is that of the function without its memory. -/
theorem fromLib_of_respondInfo {heap : Site→Bool} {bytes : ℕ→UInt8} {special : Option UInt8}
    {r : Option (ℕ→UInt8)×RespondData} (h : respondInfoFromLib heap bytes special=.ok r) :
    neuronsEngineGetRespondInfoFromLibT heap bytes special=r := by
  rw [respondInfoFromLib] at h
  rw [neuronsEngineGetRespondInfoFromLibT]
  split at h
  case isFalse htype =>
    cases h
    rw [if_neg htype]
  case isTrue htype =>
    rw [if_pos htype]
    split at h
    case isTrue => cases h
    case isFalse =>
      split at h
      case h_1 => cases h
      case h_2 hfill =>
        cases h
        rw [fillTable_of_fillMemory _ _ _ _ hfill]
      case h_3 hfill =>
        rw [fillTable_of_fillMemory _ _ _ _ hfill]
        split at h
        case isTrue hstore =>
          cases h
          exact if_pos hstore
        case isFalse hstore =>
          cases h
          exact if_neg hstore

/-- Two responses, with one byte of data and with three. -/
def twoResponds : ℕ→UInt8 := fun j => [0,0,1,1,0,0,0,0,2,1,1,1,0,0,0xff].getD j 0

/-- For the second of two responses the types are read up to where those of the first end, and
the buffer is one byte too short. -/
theorem responds_notLaid : ¬∀ bytes special,∃ table data,
    respondInfoFromLib (fun _ => true) bytes special=.ok (some table,data)∧
      Laid bytes special table data := by
  intro h
  obtain ⟨table,data,hinfo,hlaid⟩ := h twoResponds none
  have hsize : ((respondInfoFromLib (fun _ => true) twoResponds none).toOption.map
      fun r => r.2.bufferSize)=some 3 := by decide +kernel
  have hfour : sizeBefore twoResponds (respondCount twoResponds none)=4 := by decide +kernel
  rw [hinfo] at hsize
  have heq : data.bufferSize=3 := Option.some.inj hsize
  have htotal := hlaid.total
  rw [hfour,heq] at htotal
  exact absurd htotal (by decide)

end MicroPython.NeuronsResponds
