import MicroPython.StreamRw
import MicroPython.Unicode

/-!
# Reading characters

`read(n)` of a text stream reads bytes and counts characters. It asks for as many bytes as it
still wants characters, and for the bytes that are missing of a character that has been read in
part. So it never reads into a character that it does not return.
-/

namespace MicroPython.StreamRead

open List StreamRw Utf8
open Unicode (utf8IsNonascii forall_byte)

variable {σ : Type}

/-- What `read` does. -/
inductive Result where
  /-- It returns `None`. -/
  | none
  | str (bytes : List UInt8)
  /-- It raises `OSError`. -/
  | raised (errno : ℕ)
  deriving DecidableEq

/-- The variables that the count of characters sets. -/
structure Count where
  /-- `last_buf_offset` -/
  lastBufOffset : ℕ
  /-- `sz`, the number of characters that are still wanted -/
  sz : ℕ
  /-- `more_bytes` -/
  moreBytes : ℕ

/-- The number of bytes of a character that begins with a byte. -/
def charBytes (b : UInt8) : ℕ :=
  if utf8IsNonascii b=false then 1
  else if b&&&0xe0=0xc0 then 2
  else if b&&&0xf0=0xe0 then 3
  else if b&&&0xf8=0xf0 then 4
  else 5

/-- The loop that counts the characters from an offset on. It is none when it reads after the
bytes of the buffer. -/
def countChars (vstr : List UInt8) : ℕ→ℕ→ℕ→Option Count
  | 0,_,_ => none
  | rounds+1,off,sz => (vstr[off]?).bind fun b =>
    let n := charBytes b
    if off+n ≤ vstr.length then
      if off+n≥vstr.length then some ⟨off+n,sz-1,sz-1⟩
      else countChars vstr rounds (off+n) (sz-1)
    else some ⟨off,sz,(off+n-vstr.length)+(sz-1)⟩

/-- The loop of `stream_read_generic` for a text stream. It is none when it has not ended after
some rounds. -/
def readLoop (isNonblocking : ℕ→Bool) (read : σ→ℕ→Except ℕ (List UInt8)×σ) :
    ℕ→List UInt8→ Count→σ→Option (Result×σ)
  | 0,_,_,_ => none
  | rounds+1,vstr,count,s =>
    if count.moreBytes=0 then some (.str vstr,s)
    else
      let transfer := mpStreamReadExactly isNonblocking read count.moreBytes s
      let (bytes,s) := transfer.state
      if transfer.errcode≠0 then
        if isNonblocking transfer.errcode=true then
          if vstr=[] then some (.none,s) else some (.str vstr,s)
        else some (.raised transfer.errcode,s)
      else if transfer.done=0 then some (.str vstr,s)
      else
        let vstr := vstr++bytes
        (countChars vstr vstr.length count.lastBufOffset count.sz).bind fun count =>
          readLoop isNonblocking read rounds vstr count s

/-- `stream_read_generic` for a text stream. A character needs five rounds at most. -/
def streamRead (isNonblocking : ℕ→Bool) (read : σ→ℕ→Except ℕ (List UInt8)×σ) (sz : ℕ) (s : σ) :
    Option (Result×σ) :=
  readLoop isNonblocking read (5*sz+1) [] ⟨0,sz,sz⟩ s

/-! ## Counting -/

/-- The size of the character in front. Behind the last one there is none to be cut. -/
def headSize : List Character→ℕ
  | [] => 1
  | x::_ => x.bytes.length

/-- The bytes that are needed for some characters when the one in front is there in part. -/
def needed (xs : List Character) (part sz : ℕ) : ℕ :=
  if part=0 then sz else (headSize xs-part)+(sz-1)

/-- A first byte tells the size of its character. -/
theorem charBytes_announced {b : UInt8} {n : ℕ} (h : announced b=some n) : charBytes b=n+1 := by
  have htable : ∀ n,announced b=some n → charBytes b=n+1 := by
    refine forall_byte (p := fun b => ∀ n,announced b=some n → charBytes b=n+1) ?_ b
    have hbytes : ∀ n : Fin 256,(announced (UInt8.ofNat n)).all fun m =>
        charBytes (UInt8.ofNat n)=m+1 := by decide +kernel
    intro n m hm
    have := hbytes n
    rw [hm] at this
    simpa using this
  exact htable n h

variable (x : Character) (xs : List Character)

theorem charBytes_lead : charBytes x.lead=x.bytes.length := by
  rw [charBytes_announced x.complete,Sequence.bytes,length_cons]

/-- A character has four bytes at most. -/
theorem bytes_length : 0 < x.bytes.length∧x.bytes.length ≤ 4 := by
  have h := x.complete
  rw [Sequence.bytes,length_cons]
  rw [announced] at h
  repeat' split at h
  all_goals simp at h
  all_goals omega

theorem headSize_bounds : 0 < headSize xs∧headSize xs ≤ 4 := by
  cases xs with
  | nil => exact ⟨Nat.one_pos,by decide⟩
  | cons x xs => exact bytes_length x

/-- A text with a character in front. -/
theorem text_cons_bytes : text (x::xs)=x.bytes++text xs :=
  rfl

/-- The count goes over whole characters and ends at the end of the bytes or in the middle of a
character. It leaves what is needed for the characters that are still wanted. -/
theorem countChars_text (before : List UInt8) (m sz rounds : ℕ)
    (hm : 0 < m) (hle : m ≤ (text xs).length) (hsz : 0 < sz) (hbound : m+1 ≤ headSize xs+sz)
    (hrounds : m ≤ rounds) :
    ∃ k part,k ≤ sz∧(part≠0 → k < sz)∧part < headSize (xs.drop k)∧m=(text (xs.take k)).length+part∧
      countChars (before++(text xs).take m) rounds before.length sz=
        some ⟨before.length+(text (xs.take k)).length,sz-k,needed (xs.drop k) part (sz-k)⟩ := by
  induction xs generalizing before m sz rounds with
  | nil =>
    rw [text_nil,length_nil] at hle
    omega
  | cons x xs ih =>
    obtain ⟨hpos,-⟩ := bytes_length x
    have htext := text_cons_bytes x xs
    obtain ⟨rounds,rfl⟩ : ∃ r,rounds=r+1 := ⟨rounds-1,by omega⟩
    have hlength : (before++(text (x::xs)).take m).length=before.length+m := by
      rw [length_append,length_take,Nat.min_eq_left hle]
    have hbyte : (before++(text (x::xs)).take m)[before.length]?=some x.lead := by
      obtain ⟨m,rfl⟩ : ∃ n,m=n+1 := ⟨m-1,by omega⟩
      rw [List.getElem?_append_right (Nat.le_refl _),Nat.sub_self]
      rfl
    simp only [headSize] at hbound
    rw [countChars,hbyte]
    simp only [Option.bind_some,charBytes_lead,hlength]
    by_cases hwhole : x.bytes.length ≤ m
    · by_cases hend : m=x.bytes.length
      · refine ⟨1,0,hsz,by omega,(headSize_bounds _).1,?_,?_⟩
        · simpa [Sequence.bytes] using hend
        · rw [if_pos (by omega),if_pos (by omega)]
          simp [needed,Sequence.bytes]
      · have hsplit : before++(text (x::xs)).take m=
            (before++x.bytes)++(text xs).take (m-x.bytes.length) := by
          rw [htext,take_append,take_of_length_le hwhole,append_assoc]
        have hrest : m ≤ x.bytes.length+(text xs).length := by
          simpa [htext] using hle
        have hfirst := (headSize_bounds xs).1
        obtain ⟨k,part,hk,hpart,hhead,hcount,hresult⟩ := ih (before++x.bytes)
          (m-x.bytes.length) (sz-1) rounds (by omega) (by omega) (by omega) (by omega) (by omega)
        refine ⟨k+1,part,by omega,fun h => by have := hpart h; omega,hhead,?_,?_⟩
        · rw [take_succ_cons,text_cons_bytes,length_append]
          omega
        · rw [if_pos (by omega),if_neg (by omega),hsplit]
          have hsub : sz-1-k=sz-(k+1) := by omega
          rw [length_append] at hresult
          rw [hresult,hsub,take_succ_cons,drop_succ_cons,text_cons_bytes,
            length_append,Nat.add_assoc]
    · refine ⟨0,m,Nat.zero_le _,fun _ => hsz,by simpa [headSize] using hwhole,by simp,?_⟩
      have hmissing : before.length+x.bytes.length-(before.length+m)=x.bytes.length-m := by omega
      rw [if_neg (by omega),hmissing]
      simp [needed,headSize,hm.ne']

/-! ## Reading -/

variable (isNonblocking : ℕ→Bool) (src : Source σ)

/-- From the middle of a character on, the loop reads the characters that are wanted. -/
theorem readLoop_text (rounds : ℕ) (xs : List Character) (before : List UInt8) (part sz : ℕ)
    (s : σ) (hpart : part < headSize xs) (hsz : part≠0 → 0 < sz)
    (hrest : src.rest s=(text xs).drop part) (hrounds : 5*sz < rounds+part) :
    ∃ t,readLoop isNonblocking src.read rounds (before++(text xs).take part)
        ⟨before.length,sz,needed xs part sz⟩ s=some (.str (before++text (xs.take sz)),t)∧
      src.rest t=text (xs.drop sz) := by
  have hhead := headSize_bounds xs
  induction rounds generalizing xs before part sz s with
  | zero => omega
  | succ rounds ih =>
    rw [readLoop]
    by_cases hmore : needed xs part sz=0
    · have hzero : part=0∧sz=0 := by
        rw [needed] at hmore
        split at hmore <;> omega
      obtain ⟨rfl,rfl⟩ := hzero
      exact ⟨s,by simp [hmore],by simpa using hrest⟩
    rw [if_neg hmore]
    obtain ⟨t,hread,ht⟩ := mpStreamReadExactly_source isNonblocking src (needed xs part sz) s
    simp only [hread,ne_eq,not_true_eq_false,if_false]
    by_cases hend : ((src.rest s).take (needed xs part sz)).length=0
    · -- nothing is left, so the last character has been whole
      have hempty : xs=[] := by
        cases xs with
        | nil => rfl
        | cons x xs =>
          rw [hrest,length_take,length_drop,text_cons_bytes,length_append] at hend
          simp only [headSize] at hpart
          omega
      subst hempty
      have hzero : part=0 := by
        simp only [headSize] at hpart
        omega
      rw [if_pos hend]
      refine ⟨t,by simp,?_⟩
      rw [ht,hrest]
      simp
    · rw [if_neg hend]
      have hlength : (src.rest s).length=(text xs).length-part := by rw [hrest,length_drop]
      rw [length_take] at hend
      obtain ⟨m,hm⟩ : ∃ m,m=part+min (needed xs part sz) (src.rest s).length := ⟨_,rfl⟩
      have hsz' : 0 < sz := by
        by_cases hzero : part=0
        · rw [needed,if_pos hzero] at hmore
          omega
        · exact hsz hzero
      have hbound : part+needed xs part sz+1 ≤ headSize xs+sz := by
        rw [needed]
        split <;> omega
      have hbytes : before++(text xs).take part++(src.rest s).take (needed xs part sz)=
          before++(text xs).take m := by
        rw [append_assoc,hm,take_add,← hrest,← take_eq_take_min]
      obtain ⟨k,part',hk,hwant,hpart',hcount,hresult⟩ := countChars_text xs before m sz
        (before.length+m) (by omega) (by omega) hsz' (by omega) (by omega)
      have htotal : (before++(text xs).take m).length=before.length+m := by
        rw [length_append,length_take,Nat.min_eq_left (by omega)]
      have hsplit : before++(text xs).take m=
          (before++text (xs.take k))++(text (xs.drop k)).take part' := by
        conv_lhs => rw [← take_append_drop k xs]
        rw [text_append,hcount,take_length_add_append,append_assoc]
      have hrest' : src.rest t=(text (xs.drop k)).drop part' := by
        have hwhole : text xs=text (xs.take k)++text (xs.drop k) := by
          rw [← text_append,take_append_drop]
        have hdrop : (text xs).drop m=(text (xs.drop k)).drop part' := by
          rw [hwhole,hcount,drop_length_add_append]
        rw [ht,hrest,drop_drop,← hdrop]
        by_cases hall : needed xs part sz ≤ (src.rest s).length
        · rw [hm,Nat.min_eq_left hall]
        · rw [drop_eq_nil_of_le (by omega),drop_eq_nil_of_le (by omega)]
      -- a round gives a whole character or more of the one in front
      have hprogress : 5*(sz-k) < rounds+part' := by
        by_cases hk : k=0
        · subst hk
          rw [take_zero,text_nil,length_nil] at hcount
          omega
        · omega
      obtain ⟨u,hloop,hu⟩ := ih (xs.drop k) (before++text (xs.take k)) part' (sz-k) t hpart'
        (fun h => by have := hwant h; omega) hrest' hprogress (headSize_bounds _)
      refine ⟨u,?_,?_⟩
      · rw [hbytes,htotal,hresult,Option.bind_some,hsplit]
        rw [length_append] at hloop
        have hwanted : text (xs.take sz)=text (xs.take k)++text ((xs.drop k).take (sz-k)) := by
          rw [← text_append,← take_add,Nat.add_sub_cancel' hk]
        rw [hloop,hwanted,append_assoc]
      · rw [hu,drop_drop,Nat.add_sub_cancel' hk]

/-- `read(n)` returns as many characters as are asked for, or as there are, and leaves the others
in the stream, whatever the chunks of the stream are. -/
theorem streamRead_chars (n : ℕ) (s : σ) (xs : List Character) (h : src.rest s=text xs) :
    ∃ t taken left,xs=taken++left∧taken.length=min n xs.length∧
      streamRead isNonblocking src.read n s=some (.str (text taken),t)∧src.rest t=text left := by
  obtain ⟨t,hread,ht⟩ := readLoop_text isNonblocking src (5*n+1) xs [] 0 n s
    (headSize_bounds xs).1 nofun h (by omega)
  exact ⟨t,xs.take n,xs.drop n,(List.take_append_drop n xs).symm,List.length_take,
    by simpa [streamRead,needed] using hread,ht⟩

/-- A stream that is read byte by byte. -/
def byteByByte : Source (List UInt8) where
  rest := id
  chunk := fun s size => min 1 (min size s.length)
  next := fun s size => s.drop (min 1 (min size s.length))
  chunk_le := fun s size => by omega
  chunk_le_rest := fun s size => by simp
  chunk_pos := fun s size hsize hrest => by
    have := List.length_pos_iff.mpr hrest
    simp only [id] at this
    omega
  rest_next := fun s size => rfl

/-- One of two characters, which has three bytes. -/
theorem streamRead_euro : ∃ (t : List UInt8) (taken left : List Character),
    taken.length=1∧left.length=1∧
      streamRead (fun _ => false) byteByByte.read 1 (encode ['€','x'])=some (.str (text taken),t)∧
      t=text left := by
  obtain ⟨t,taken,left,hxs,hlength,hread,hrest⟩ := streamRead_chars (fun _ => false) byteByByte 1
    (encode ['€','x']) (['€','x'].map ofChar) rfl
  have hleft : 2=taken.length+left.length := by simpa using congrArg List.length hxs
  have htaken : taken.length=1 := hlength
  exact ⟨t,taken,left,htaken,by omega,hread,hrest⟩

end MicroPython.StreamRead
