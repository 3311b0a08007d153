import MicroPython.StreamRw

/-!
# Buffered writers

A `BufferedWriter` collects bytes until its buffer is full and then writes the whole buffer to its
stream. Nothing is lost and nothing is sent twice as long as the stream takes each buffer that it
is given, or refuses the first one of a write at once. A buffer that is taken in part is sent again
or dropped, and a buffer without bytes is written for ever.
-/

namespace MicroPython.BufferedWriter

open Nat List StreamRw

variable {σ : Type}

/-! ## The object -/

/-- `mp_obj_bufwriter_t`, apart from its stream. -/
structure BufWriter (alloc : ℕ) where
  /-- `buf` -/
  buf : List UInt8
  /-- It has `alloc` bytes. -/
  size : buf.length=alloc
  /-- `len` -/
  len : ℕ
  /-- The buffer is never full between calls. -/
  fits : len=0∨len < alloc

variable {alloc : ℕ}

/-- The bytes that are buffered. -/
def BufWriter.buffered (self : BufWriter alloc) : List UInt8 := self.buf.take self.len

/-- The buffer is not larger than its memory. -/
theorem BufWriter.len_le (self : BufWriter alloc) : self.len ≤ alloc := by
  have := self.fits
  omega

/-- `memcpy` of bytes behind those that are buffered. -/
def BufWriter.memcpy (self : BufWriter alloc) (bytes : List UInt8)
    (h : self.len+bytes.length ≤ alloc) : BufWriter alloc where
  buf := self.buf.take self.len++bytes++self.buf.drop (self.len+bytes.length)
  size := by
    have := self.size
    simp only [List.length_append,List.length_take,List.length_drop]
    omega
  len := self.len
  fits := self.fits

/-- The same buffer with another length. -/
def BufWriter.setLen (self : BufWriter alloc) (len : ℕ) (h : len=0∨len < alloc) :
    BufWriter alloc where
  buf := self.buf
  size := self.size
  len := len
  fits := h

/-- What a call does. -/
inductive Result where
  | returned (n : ℕ)
  /-- It returns `MP_STREAM_ERROR` or raises `OSError`. -/
  | failed (errno : ℕ)
  /-- An `assert` fails. -/
  | aborted
  deriving DecidableEq

variable (ndebug : Bool) (isNonblocking : ℕ→Bool) (sink : Sink σ)

/-- The loop of `bufwriter_write`. It is none when it has not ended after some rounds. -/
def writeLoop : ℕ→BufWriter alloc→List UInt8→ℕ→σ→Option (Result×BufWriter alloc×σ)
  | 0,_,_,_,_ => none
  | rounds+1,self,bytes,orgSize,s =>
    if bytes=[] then some (.returned orgSize,self,s)
    else if h : bytes.length < alloc-self.len then
      let self' := self.memcpy bytes (by omega)
      some (.returned orgSize,self'.setLen (self.len+bytes.length) (.inr (by omega)),s)
    else
      let rem := alloc-self.len
      let self := self.memcpy (bytes.take rem) (by
        have := self.len_le
        rw [List.length_take]
        omega)
      let transfer := mpStreamWriteExactly isNonblocking sink.write self.buf s
      if transfer.errcode≠0 then some (.failed transfer.errcode,self,transfer.state)
      else if ndebug=false∧transfer.done≠alloc then some (.aborted,self,transfer.state)
      else writeLoop rounds (self.setLen 0 (.inl rfl)) (bytes.drop rem) orgSize transfer.state

/-- `bufwriter_flush` -/
def flush (self : BufWriter alloc) (s : σ) : Result×BufWriter alloc×σ :=
  if self.len≠0 then
    let transfer := mpStreamWriteExactly isNonblocking sink.write self.buffered s
    if ndebug=false∧transfer.done≠self.len then (.aborted,self,transfer.state)
    else
      let self := self.setLen 0 (.inl rfl)
      if transfer.errcode≠0 then (.failed transfer.errcode,self,transfer.state)
      else (.returned 0,self,transfer.state)
  else (.returned 0,self,s)

/-! ## Runs -/

/-- A call of a method. -/
inductive Call where
  /-- `write` -/
  | write (bytes : List UInt8)
  /-- `flush` -/
  | flush

/-- A call, within some rounds. -/
def call (rounds : ℕ) (self : BufWriter alloc) (s : σ) : Call→Option (Result×BufWriter alloc×σ)
  | .write bytes => writeLoop ndebug isNonblocking sink rounds self bytes bytes.length s
  | .flush => some (flush ndebug isNonblocking sink self s)

/-- The bytes that a call reports as written. -/
def reported : Call→Result→List UInt8
  | .write bytes,.returned n => bytes.take n
  | _,_ => []

/-- Each call of a run returns, and then what has reached the stream and what is buffered are the
bytes before the run and those that have been reported as written, in order. -/
def AllIntact : List Call→List UInt8→BufWriter alloc→σ→Prop
  | [],_,_,_ => True
  | c::cs,accepted,self,s => ∃ rounds result self' s',
      call ndebug isNonblocking sink rounds self s c=some (result,self',s')∧result≠.aborted∧
      sink.sent s'++self'.buffered=accepted++reported c result∧
      AllIntact cs (accepted++reported c result) self' s'

/-- The stream takes all full buffers of some bytes. What is left does not fill another one. -/
inductive TakesBuffers (alloc : ℕ) : σ→List UInt8→List UInt8→σ→Prop where
  | rest {s : σ} {bytes : List UInt8} (h : bytes.length < alloc) :
    TakesBuffers alloc s bytes bytes s
  /-- The first buffer is taken, and then the others. -/
  | buffer {s t u : σ} {bytes left : List UInt8} (h : alloc ≤ bytes.length)
    (htakes : Takes sink s (bytes.take alloc) t)
    (hrest : TakesBuffers alloc t (bytes.drop alloc) left u) : TakesBuffers alloc s bytes left u

/-- The stream answers a call as it should: a write of bytes meets a stream that takes all full
buffers, or fails at once when it gets the first one, and a flush a stream that takes what is
buffered. -/
def Meets (self : BufWriter alloc) (s : σ) : Call→Prop
  | .write bytes => bytes=[]∨(∃ left t,TakesBuffers sink alloc s (self.buffered++bytes) left t)∨
      0 < alloc∧alloc ≤ (self.buffered++bytes).length∧
        ∃ errno t,sink.write s ((self.buffered++bytes).take alloc)=(.failed errno,t)
  | .flush => ∃ t,Takes sink s self.buffered t

/-- It does so at each call of a run. -/
def AllMeet : List Call→BufWriter alloc→σ→Prop
  | [],_,_ => True
  | c::cs,self,s => Meets sink self s c∧
      ∀ rounds result self' s',
        call ndebug isNonblocking sink rounds self s c=some (result,self',s') → AllMeet cs self' s'

variable {ndebug isNonblocking sink} {self : BufWriter alloc} {s : σ}

/-! ## Copies -/

/-- The bytes in front of a copy stay. -/
theorem buffered_memcpy (bytes : List UInt8) (h : self.len+bytes.length ≤ alloc) :
    (self.memcpy bytes h).buffered=self.buffered := by
  have hsize := self.size
  have hlength : (self.buf.take self.len).length=self.len := by
    rw [length_take]
    omega
  simp only [BufWriter.buffered,BufWriter.memcpy]
  rw [append_assoc,take_append_of_le_length (by omega),take_take,Nat.min_self]

/-- A copy is behind them. -/
theorem take_memcpy (bytes : List UInt8) (h : self.len+bytes.length ≤ alloc) :
    (self.memcpy bytes h).buf.take (self.len+bytes.length)=self.buffered++bytes := by
  have hsize := self.size
  have hlength : (self.buf.take self.len++bytes).length=self.len+bytes.length := by
    rw [length_append,length_take]
    omega
  simp only [BufWriter.buffered,BufWriter.memcpy]
  rw [← hlength,take_left]

variable {bytes : List UInt8} {t : σ} {rounds : ℕ}

/-- A copy that fills the buffer. -/
theorem buf_memcpy (hfull : alloc-self.len ≤ bytes.length)
    (h : self.len+(bytes.take (alloc-self.len)).length ≤ alloc) :
    (self.memcpy (bytes.take (alloc-self.len)) h).buf=(self.buffered++bytes).take alloc := by
  have hsize := self.size
  have hlength : self.buffered.length=self.len := by
    rw [BufWriter.buffered,length_take]
    omega
  have htotal : self.len+(bytes.take (alloc-self.len)).length=alloc := by
    rw [length_take]
    omega
  have htake := take_memcpy _ h
  rw [htotal,take_of_length_le (Nat.le_of_eq (self.memcpy _ h).size)] at htake
  have hwhole : self.buffered.take alloc=self.buffered := take_of_length_le (by omega)
  rw [htake,take_append,hlength,hwhole]

/-- Nothing is buffered then. -/
theorem buffered_setLen (h : 0=0∨0 < alloc) : (self.setLen 0 h).buffered=[] := by
  rw [BufWriter.buffered,BufWriter.setLen,take_zero]

/-- The number of buffered bytes. -/
theorem length_buffered (self : BufWriter alloc) : self.buffered.length=self.len := by
  have hsize := self.size
  have hlen := self.len_le
  rw [BufWriter.buffered,length_take]
  omega

/-! ## Writes -/

theorem TakesBuffers.sent {left : List UInt8}
    (h : TakesBuffers sink alloc s bytes left t) : sink.sent t++left=sink.sent s++bytes := by
  induction h with
  | rest h => rfl
  | buffer h htakes hrest ih =>
    rw [ih,htakes.sent,append_assoc,take_append_drop]

/-- A round in which the bytes do not fill the buffer. -/
theorem writeLoop_short (rounds : ℕ) {bytes : List UInt8} (orgSize : ℕ)
    (h : (self.buffered++bytes).length < alloc) :
    ∃ self' : BufWriter alloc,writeLoop ndebug isNonblocking sink (rounds+1) self bytes orgSize s=
      some (.returned orgSize,self',s)∧self'.buffered=self.buffered++bytes := by
  rw [length_append,length_buffered] at h
  rw [writeLoop]
  by_cases hbytes : bytes=[]
  · exact ⟨self,if_pos hbytes,by rw [hbytes,append_nil]⟩
  · have hshort : bytes.length < alloc-self.len := by omega
    rw [if_neg hbytes,dif_pos hshort]
    exact ⟨_,rfl,take_memcpy bytes (by omega)⟩

/-- What a round with a full buffer gives to the stream, and what comes then. -/
theorem writeLoop_full (rounds : ℕ) {bytes : List UInt8} (orgSize : ℕ) (hbytes : bytes≠[])
    (h : alloc ≤ (self.buffered++bytes).length) :
    ∃ self' : BufWriter alloc,self'.buffered=self.buffered∧
      writeLoop ndebug isNonblocking sink (rounds+1) self bytes orgSize s=
        let transfer := mpStreamWriteExactly isNonblocking sink.write
          ((self.buffered++bytes).take alloc) s
        if transfer.errcode≠0 then some (.failed transfer.errcode,self',transfer.state)
        else if ndebug=false∧transfer.done≠alloc then some (.aborted,self',transfer.state)
        else writeLoop ndebug isNonblocking sink rounds (self'.setLen 0 (.inl rfl))
          (bytes.drop (alloc-self.len)) orgSize transfer.state := by
  rw [length_append,length_buffered] at h
  have hfull : alloc-self.len ≤ bytes.length := by omega
  have hcopy : self.len+(bytes.take (alloc-self.len)).length ≤ alloc := by
    have := self.len_le
    rw [length_take]
    omega
  refine ⟨self.memcpy (bytes.take (alloc-self.len)) hcopy,buffered_memcpy _ hcopy,?_⟩
  rw [writeLoop,if_neg hbytes,dif_neg (by omega)]
  simp only [buf_memcpy hfull]

theorem drop_full (self : BufWriter alloc) :
    (self.buffered++bytes).drop alloc=bytes.drop (alloc-self.len) := by
  have := self.len_le
  rw [drop_append,length_buffered,drop_eq_nil_of_le (by rw [length_buffered]; omega),nil_append]

/-- Bytes that meet a stream that takes all full buffers are written. -/
theorem writeLoop_takes {data left : List UInt8} {t : σ} (h : TakesBuffers sink alloc s data left t)
    (rounds : ℕ) (self : BufWriter alloc) (bytes : List UInt8) (orgSize : ℕ)
    (hdata : data=self.buffered++bytes) (halloc : 0 < alloc) (hrounds : bytes.length < rounds) :
    ∃ self' : BufWriter alloc,writeLoop ndebug isNonblocking sink rounds self bytes orgSize s=
      some (.returned orgSize,self',t)∧self'.buffered=left := by
  induction h generalizing rounds self bytes with
  | rest hshort =>
    obtain ⟨rounds,rfl⟩ : ∃ r,rounds=r+1 := ⟨rounds-1,by omega⟩
    subst hdata
    exact writeLoop_short rounds orgSize hshort
  | buffer hfull htakes hrest ih =>
    obtain ⟨rounds,rfl⟩ : ∃ r,rounds=r+1 := ⟨rounds-1,by omega⟩
    subst hdata
    have hfits := self.fits
    have hbytes : bytes≠[] := by
      rintro rfl
      rw [append_nil,length_buffered] at hfull
      omega
    have hsize := hfull
    rw [length_append,length_buffered] at hsize
    obtain ⟨self',-,hloop⟩ := @writeLoop_full σ alloc ndebug isNonblocking sink self _ rounds bytes
      orgSize hbytes hfull
    have hlen : ((self.buffered++bytes).take alloc).length=alloc := by
      rw [length_take,Nat.min_eq_left hfull]
    have hdrop : (self.buffered++bytes).drop alloc=
        (self'.setLen 0 (.inl rfl)).buffered++bytes.drop (alloc-self.len) := by
      rw [drop_full,buffered_setLen (.inl rfl),nil_append]
    rw [hloop,mpStreamWriteExactly_takes isNonblocking htakes,hlen]
    simp only [ne_eq,not_true_eq_false,if_false,and_false]
    refine ih rounds (self'.setLen 0 (.inl rfl)) (bytes.drop (alloc-self.len)) hdrop ?_
    rw [length_drop]
    omega

/-- A write that the stream refuses changes nothing. -/
theorem writeLoop_refused (rounds : ℕ) {bytes : List UInt8} (orgSize : ℕ) (hbytes : bytes≠[])
    (halloc : 0 < alloc) (hfull : alloc ≤ (self.buffered++bytes).length) {errno : ℕ} {t : σ}
    (h : sink.write s ((self.buffered++bytes).take alloc)=(.failed errno,t)) :
    ∃ self' : BufWriter alloc,writeLoop ndebug isNonblocking sink (rounds+1) self bytes orgSize s=
      some (.failed errno,self',t)∧self'.buffered=self.buffered := by
  obtain ⟨self',hbuffered,hloop⟩ := @writeLoop_full σ alloc ndebug isNonblocking sink self s rounds
    bytes orgSize hbytes hfull
  have hblock : (self.buffered++bytes).take alloc≠[] := by
    rw [ne_eq,take_eq_nil_iff]
    simp [hbytes,Nat.ne_of_gt halloc]
  refine ⟨self',?_,hbuffered⟩
  rw [hloop,mpStreamWriteExactly_refused isNonblocking hblock h]
  simp only [if_pos (sink.errno_ne h)]

/-- What a write does when no assertion fails: the stream takes all full buffers, it refuses the
first one, or the number of bytes that are sent or buffered is wrong. -/
theorem writeLoop_cases (rounds : ℕ) (self : BufWriter alloc) (bytes : List UInt8) (orgSize : ℕ)
    (s : σ) {result : Result} {self' : BufWriter alloc} (halloc : 0 < alloc)
    (h : writeLoop false isNonblocking sink rounds self bytes orgSize s=some (result,self',t))
    (habort : result≠.aborted) :
    (∃ left,TakesBuffers sink alloc s (self.buffered++bytes) left t∧result=.returned orgSize)∨
      (∃ errno,result=.failed errno)∧
      (sink.sent s).length+self.buffered.length ≤ (sink.sent t).length+self'.buffered.length∧
      ((∃ errno u,alloc ≤ (self.buffered++bytes).length∧
        sink.write s ((self.buffered++bytes).take alloc)=(.failed errno,u))∨
        (sink.sent s).length+self.buffered.length≠ (sink.sent t).length+self'.buffered.length) := by
  induction rounds generalizing self bytes s with
  | zero => cases h
  | succ rounds ih =>
    by_cases hshort : (self.buffered++bytes).length < alloc
    · obtain ⟨self'',hloop,-⟩ := @writeLoop_short σ alloc false isNonblocking sink self s rounds
        bytes orgSize hshort
      rw [hloop] at h
      cases h
      exact .inl ⟨_,.rest hshort,rfl⟩
    have hfull : alloc ≤ (self.buffered++bytes).length := by omega
    have hbytes : bytes≠[] := by
      rintro rfl
      have := self.fits
      rw [append_nil,length_buffered] at hfull
      omega
    obtain ⟨self'',hbuffered,hloop⟩ := @writeLoop_full σ alloc false isNonblocking sink self s
      rounds bytes orgSize hbytes hfull
    obtain ⟨n,errcode,u,hwrite,hn,hsent,hall⟩ := mpStreamWriteExactly_spec isNonblocking sink
      ((self.buffered++bytes).take alloc) s
    have hlength : ((self.buffered++bytes).take alloc).length=alloc := by
      rw [List.length_take,Nat.min_eq_left hfull]
    have hgrown : (sink.sent u).length=(sink.sent s).length+n := by
      rw [hsent,length_append,length_take,Nat.min_eq_left hn]
    rw [hloop,hwrite] at h
    by_cases herr : errcode≠0
    · simp only [if_pos herr] at h
      cases h
      refine .inr ⟨⟨_,rfl⟩,by rw [hbuffered]; omega,?_⟩
      by_cases hzero : n=0
      · subst hzero
        obtain ⟨errno,hrefused⟩ := mpStreamWriteExactly_failed herr hwrite
        exact .inl ⟨errno,t,hfull,hrefused⟩
      · rw [hbuffered]
        exact .inr (by omega)
    simp only [if_neg herr] at h
    by_cases hdone : n=alloc
    · rw [if_neg fun habort => habort.2 hdone] at h
      obtain ⟨-,htakes⟩ := hall (hdone.trans hlength.symm)
      have hdrop : (self''.setLen 0 (.inl rfl)).buffered++bytes.drop (alloc-self.len)=
          (self.buffered++bytes).drop alloc := by
        rw [drop_full,buffered_setLen (.inl rfl),nil_append]
      have hfits := self.fits
      have hbuf := length_buffered self
      have hnext := ih (self''.setLen 0 (.inl rfl)) (bytes.drop (alloc-self.len)) u h
      rw [hdrop,buffered_setLen (.inl rfl),length_nil] at hnext
      rcases hnext with ⟨left,hrest,hresult⟩ | ⟨hfailed,hmore,-⟩
      · exact .inl ⟨left,.buffer hfull htakes hrest,hresult⟩
      · exact .inr ⟨hfailed,by omega,.inr (by omega)⟩
    · rw [if_pos ⟨trivial,hdone⟩] at h
      cases h
      exact absurd rfl habort

/-- A buffer that is full has memory. -/
theorem TakesBuffers.pos {left : List UInt8}
    (h : TakesBuffers sink alloc s bytes left t) : 0 < alloc := by
  induction h with
  | rest h => omega
  | buffer h htakes hrest ih => exact ih

/-- A writer without memory never ends to write bytes. -/
theorem writeLoop_empty (halloc : alloc=0) (rounds : ℕ) (self : BufWriter alloc)
    (hbytes : bytes≠[]) (orgSize : ℕ) (s : σ) :
    writeLoop ndebug isNonblocking sink rounds self bytes orgSize s=none := by
  induction rounds generalizing self s with
  | zero => rfl
  | succ rounds ih =>
    obtain ⟨self',-,hloop⟩ := @writeLoop_full σ alloc ndebug isNonblocking sink self s rounds
      bytes orgSize hbytes (by omega)
    have hblock : (self.buffered++bytes).take alloc=[] :=
      take_eq_nil_iff.mpr (.inl halloc)
    rw [hloop,hblock]
    simp only [mpStreamWriteExactly_takes isNonblocking (.nil s)]
    have hzero : alloc-self.len=0 := by omega
    rw [if_neg (by simp),if_neg (by simp [halloc]),hzero,drop_zero]
    exact ih _ s

/-! ## Calls -/

/-- A call that meets the stream as it should returns and leaves the bytes intact. -/
theorem call_intact {c : Call} (h : Meets sink self s c) : ∃ rounds result self' s',
    call ndebug isNonblocking sink rounds self s c=some (result,self',s')∧result≠.aborted∧
    sink.sent s'++self'.buffered=sink.sent s++self.buffered++reported c result := by
  cases c with
  | write bytes =>
    rcases h with rfl | ⟨left,t,htakes⟩ | ⟨halloc,hfull,errno,t,hrefused⟩
    · exact ⟨1,.returned 0,self,s,rfl,nofun,by simp [reported]⟩
    · obtain ⟨self',hloop,hleft⟩ := @writeLoop_takes σ alloc ndebug isNonblocking sink s _ left t
        htakes (bytes.length+1) self bytes bytes.length rfl htakes.pos (lt_succ_self _)
      refine ⟨bytes.length+1,.returned bytes.length,self',t,hloop,nofun,?_⟩
      rw [hleft,htakes.sent,reported,take_length,append_assoc]
    · by_cases hbytes : bytes=[]
      · subst hbytes
        exact ⟨1,.returned 0,self,s,rfl,nofun,by simp [reported]⟩
      obtain ⟨self',hloop,hbuffered⟩ := @writeLoop_refused σ alloc ndebug isNonblocking sink self s
        0 bytes bytes.length hbytes halloc hfull errno t hrefused
      refine ⟨1,_,self',t,hloop,nofun,?_⟩
      rw [hbuffered,sink.sent_failed hrefused,reported,append_nil]
      nofun
  | flush =>
    obtain ⟨t,htakes⟩ := h
    by_cases hlen : self.len=0
    · refine ⟨0,.returned 0,self,s,?_,nofun,by simp [reported]⟩
      simp [call,flush,hlen]
    · refine ⟨0,.returned 0,self.setLen 0 (.inl rfl),t,?_,nofun,?_⟩
      · simp [call,flush,hlen,mpStreamWriteExactly_takes isNonblocking htakes,length_buffered]
      · rw [htakes.sent,buffered_setLen (.inl rfl),reported]
        nofun

/-- A call that leaves the bytes intact has met the stream as it should. -/
theorem meets_of_intact {c : Call} {result : Result} {self' : BufWriter alloc}
    {s' : σ} (h : call false isNonblocking sink rounds self s c=some (result,self',s'))
    (habort : result≠.aborted)
    (hintact : sink.sent s'++self'.buffered=sink.sent s++self.buffered++reported c result) :
    Meets sink self s c := by
  have hlength := congrArg List.length hintact
  cases c with
  | write bytes =>
    by_cases hbytes : bytes=[]
    · exact .inl hbytes
    have halloc : 0 < alloc := by
      refine Nat.pos_of_ne_zero fun hzero => ?_
      rw [call,writeLoop_empty hzero rounds self hbytes] at h
      cases h
    rcases writeLoop_cases rounds self bytes bytes.length s halloc h habort with
      ⟨left,htakes,-⟩ | ⟨⟨errno,rfl⟩,-,⟨errno',t,hfull,hrefused⟩ | hwrong⟩
    · exact .inr (.inl ⟨left,s',htakes⟩)
    · exact .inr (.inr ⟨halloc,hfull,errno',t,hrefused⟩)
    · exact absurd (by simpa [reported] using hlength.symm) hwrong
  | flush =>
    by_cases hlen : self.len=0
    · refine ⟨s,?_⟩
      have hnil : self.buffered=[] := by rw [BufWriter.buffered,hlen,take_zero]
      rw [hnil]
      exact .nil s
    · obtain ⟨n,errcode,t,hwrite,-,-,hall⟩ :=
        mpStreamWriteExactly_spec isNonblocking sink self.buffered s
      rw [length_buffered] at hall
      simp only [call,flush,ne_eq,if_pos hlen,hwrite,Option.some.injEq] at h
      by_cases hdone : n=self.len
      · exact ⟨t,(hall hdone).2⟩
      · rw [if_pos ⟨trivial,hdone⟩] at h
        cases h
        exact absurd rfl habort

/-- More rounds do not change what a write does. -/
theorem writeLoop_mono {rounds' : ℕ} (hle : rounds ≤ rounds')
    {orgSize : ℕ} {r : Result×BufWriter alloc×σ}
    (h : writeLoop ndebug isNonblocking sink rounds self bytes orgSize s=some r) :
    writeLoop ndebug isNonblocking sink rounds' self bytes orgSize s=some r := by
  induction rounds generalizing rounds' self bytes s with
  | zero => cases h
  | succ rounds ih =>
    obtain ⟨rounds',rfl⟩ : ∃ r,rounds'=r+1 := ⟨rounds'-1,by omega⟩
    rw [writeLoop] at h ⊢
    split at h
    case isTrue hbytes => simpa [hbytes] using h
    case isFalse hbytes =>
      rw [if_neg hbytes]
      split at h
      case isTrue hshort => simpa [hshort] using h
      case isFalse hshort =>
        rw [dif_neg hshort]
        simp only at h ⊢
        split at h
        case isTrue herr => simpa [herr] using h
        case isFalse herr =>
          rw [if_neg herr]
          split at h
          case isTrue habort => simpa [habort] using h
          case isFalse habort =>
            rw [if_neg habort]
            exact ih (by omega) h

/-- A call does one thing. -/
theorem call_unique {c : Call} {rounds' : ℕ} {r r' : Result×BufWriter alloc×σ}
    (h : call ndebug isNonblocking sink rounds self s c=some r)
    (h' : call ndebug isNonblocking sink rounds' self s c=some r') : r=r' := by
  cases c with
  | flush => exact Option.some.inj (h.symm.trans h')
  | write bytes =>
    rcases Nat.le_total rounds rounds' with hle | hle
    · exact Option.some.inj ((writeLoop_mono hle h).symm.trans h')
    · exact Option.some.inj (h.symm.trans (writeLoop_mono hle h'))

/-! ## Runs -/

/-- In a run whose calls meet the stream as they should, the bytes are intact after each call. With
assertions this happens in no other run. -/
theorem run_intact (isNonblocking : ℕ→Bool) (sink : Sink σ) (calls : List Call)
    (self : BufWriter alloc) (s : σ) :
    (∀ ndebug,AllMeet ndebug isNonblocking sink calls self s →
      AllIntact ndebug isNonblocking sink calls (sink.sent s++self.buffered) self s)∧
    (AllIntact false isNonblocking sink calls (sink.sent s++self.buffered) self s →
      AllMeet false isNonblocking sink calls self s) := by
  induction calls generalizing self s with
  | nil => exact ⟨fun _ _ => trivial,fun _ => trivial⟩
  | cons c calls ih =>
    constructor
    · rintro ndebug ⟨hmeets,hnext⟩
      obtain ⟨rounds,result,self',s',hcall,habort,hintact⟩ := @call_intact σ alloc ndebug
        isNonblocking sink self s c hmeets
      refine ⟨rounds,result,self',s',hcall,habort,hintact,?_⟩
      rw [← hintact]
      exact (ih self' s').1 ndebug (hnext rounds result self' s' hcall)
    · rintro ⟨rounds,result,self',s',hcall,habort,hintact,hrest⟩
      refine ⟨meets_of_intact hcall habort hintact,fun rounds' result' self'' s'' hcall' => ?_⟩
      cases call_unique hcall hcall'
      rw [← hintact] at hrest
      exact (ih self' s').2 hrest

/-- `bufwriter_make_new`, with what is in the memory that it gets. -/
def makeNew (memory : List UInt8) : BufWriter memory.length where
  buf := memory
  size := rfl
  len := 0
  fits := .inl rfl

/-- What has reached the stream and what is buffered are the bytes that the calls have reported as
written when the stream takes each full buffer or refuses the first one of a write, and takes what
is flushed. This is the only such case when assertions are compiled in. -/
theorem bufferedWriter_runs (isNonblocking : ℕ→Bool) (sink : Sink σ) (memory : List UInt8)
    (calls : List Call) (s : σ) :
    (∀ ndebug,AllMeet ndebug isNonblocking sink calls (makeNew memory) s →
      AllIntact ndebug isNonblocking sink calls (sink.sent s) (makeNew memory) s)∧
    (AllIntact false isNonblocking sink calls (sink.sent s) (makeNew memory) s →
      AllMeet false isNonblocking sink calls (makeNew memory) s) := by
  have hruns := run_intact isNonblocking sink calls (makeNew memory) s
  have hempty : (makeNew memory).buffered=[] := List.take_zero
  rw [hempty,List.append_nil] at hruns
  exact hruns

/-- A stream that takes one byte, then fails once, and then takes all. -/
def faltering : Sink (List UInt8×ℕ) where
  sent := fun s => s.1
  write := fun s bytes =>
    if s.2=0 then (.moved (min 1 bytes.length),s.1++bytes.take 1,1)
    else if s.2=1 then (.failed 5,s.1,2)
    else (.moved bytes.length,s.1++bytes,2)
  moved_le := by
    intro s bytes n t h
    split at h
    · cases h
      omega
    · split at h <;> cases h
      omega
  sent_moved := by
    intro s bytes n t h
    split at h
    · cases h
      simp [← List.take_eq_take_min]
    · split at h <;> cases h
      simp
  sent_failed := by
    intro s bytes errno t h
    split at h
    · cases h
    · split at h <;> cases h
      rfl
  errno_ne := by
    intro s bytes errno t h
    split at h
    · cases h
    · split at h <;> cases h
      decide

/-- A byte is sent twice when the stream fails in the middle of a buffer, and a writer with a
buffer of no bytes does not return. -/
theorem bufferedWriter_twice : ¬AllIntact false (fun _ => false) faltering
      [.write [97],.write [98],.write [98]] [] (makeNew [0,0]) ([],0)∧
    ¬AllIntact false (fun _ => false) faltering [.write [97]] [] (makeNew []) ([],0) := by
  constructor
  · rintro ⟨_,_,self,s,hfirst,-,-,_,_,self',s',hsecond,-,-,_,_,self'',s'',hthird,-,hintact,-⟩
    -- what the calls do is computed
    cases call_unique hfirst (show call false (fun _ => false) faltering 3 (makeNew [0,0]) ([],0)
      (.write [97])=some _ from rfl)
    cases call_unique hsecond (show call false (fun _ => false) faltering 3 _ _
      (.write [98])=some _ from rfl)
    cases call_unique hthird (show call false (fun _ => false) faltering 3 _ _
      (.write [98])=some _ from rfl)
    revert hintact
    decide
  · rintro ⟨rounds,_,_,_,hcall,-⟩
    rw [call,writeLoop_empty rfl rounds _ (by decide)] at hcall
    cases hcall

end MicroPython.BufferedWriter
