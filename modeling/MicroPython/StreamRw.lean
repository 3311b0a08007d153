import Mathlib.Data.Nat.Notation

/-!
# Transfers to and from streams

`mp_stream_rw` calls the function of a stream until all bytes are moved, the function moves none
or it fails. The chunks that the stream moves do not show in the result: a source whose reads
never fail gives the bytes that come first, and a sink gets all bytes or a first part of them.
-/

namespace MicroPython.StreamRw

open Nat List

variable {σ : Type}

/-! ## The loop -/

/-- What the function of a stream returns. -/
inductive Outcome where
  | moved (n : ℕ)
  /-- `MP_STREAM_ERROR`, with an error code. -/
  | failed (errno : ℕ)

/-- What `mp_stream_rw` returns, and the state then. -/
structure Transfer (σ : Type) where
  /-- The bytes that are moved. -/
  done : ℕ
  /-- `*errcode` -/
  errcode : ℕ
  state : σ

/-- The loop of `mp_stream_rw`. The function gets what is moved before and what is left. No more
rounds are needed than bytes are left. -/
def rwLoop (isNonblocking : ℕ→Bool) (once : Bool) (io : σ→ℕ→ℕ→Outcome×σ) : ℕ→ℕ→ℕ→σ→Transfer σ
  | 0,_,done,s => ⟨done,0,s⟩
  | rounds+1,size,done,s =>
    if size=0 then ⟨done,0,s⟩
    else
      match io s done size with
      -- what has been moved is not leaked when the stream would block
      | (.failed errno,s) => ⟨done,if isNonblocking errno=true∧done≠0 then 0 else errno,s⟩
      | (.moved n,s) =>
        if n=0 then ⟨done,0,s⟩
        else if once then ⟨n,0,s⟩
        else rwLoop isNonblocking once io rounds (size-n) (done+n) s

/-- `mp_stream_rw` -/
def mpStreamRw (isNonblocking : ℕ→Bool) (once : Bool) (io : σ→ℕ→ℕ→Outcome×σ) (size : ℕ) (s : σ) :
    Transfer σ :=
  rwLoop isNonblocking once io size size 0 s

/-- `mp_stream_read_exactly`. The bytes that are read are in front of the state. -/
def mpStreamReadExactly (isNonblocking : ℕ→Bool) (read : σ→ℕ→Except ℕ (List UInt8)×σ)
    (size : ℕ) (s : σ) : Transfer (List UInt8×σ) :=
  let io (s : List UInt8×σ) (_ size : ℕ) : Outcome×List UInt8×σ :=
    match read s.2 size with
    | (.ok bytes,t) => (.moved bytes.length,s.1++bytes,t)
    | (.error errno,t) => (.failed errno,s.1,t)
  mpStreamRw isNonblocking false io size ([],s)

/-- `mp_stream_write_exactly` -/
def mpStreamWriteExactly (isNonblocking : ℕ→Bool) (write : σ→List UInt8→Outcome×σ)
    (bytes : List UInt8) (s : σ) : Transfer σ :=
  mpStreamRw isNonblocking false (fun s done _ => write s (bytes.drop done)) bytes.length s

/-! ## Reads that never fail -/

/-- A stream that is read in chunks of any sizes. A chunk is empty only at the end. -/
structure Source (σ : Type) where
  /-- The bytes that are still to come. -/
  rest : σ→List UInt8
  /-- The size of the chunk that a read gets. -/
  chunk : σ→ℕ→ℕ
  /-- The state after a read. -/
  next : σ→ℕ→σ
  /-- A read gets no more than it asks for. -/
  chunk_le : ∀ s size,chunk s size ≤ size
  /-- It gets no more than there is. -/
  chunk_le_rest : ∀ s size,chunk s size ≤ (rest s).length
  /-- It gets something when there is something. -/
  chunk_pos : ∀ s size,0 < size → rest s≠[] → 0 < chunk s size
  /-- What it gets does not come again. -/
  rest_next : ∀ s size,rest (next s size)=(rest s).drop (chunk s size)

/-- A read of such a stream. -/
def Source.read (src : Source σ) (s : σ) (size : ℕ) : Except ℕ (List UInt8)×σ :=
  (.ok ((src.rest s).take (src.chunk s size)),src.next s size)

variable (isNonblocking : ℕ→Bool)

/-- The loop gets the bytes that come first, whatever the chunks are. -/
theorem rwLoop_source (src : Source σ) (rounds size done : ℕ)
    (hrounds : size ≤ rounds) (buf : List UInt8) (s : σ) :
    ∃ t,rwLoop isNonblocking false (fun (s : List UInt8×σ) (_ size : ℕ) =>
        match src.read s.2 size with
        | (.ok bytes,t) => (.moved bytes.length,s.1++bytes,t)
        | (.error errno,t) => (.failed errno,s.1,t)) rounds size done (buf,s)=
      ⟨done+((src.rest s).take size).length,0,buf++(src.rest s).take size,t⟩∧
      src.rest t=(src.rest s).drop size := by
  induction rounds generalizing size done buf s with
  | zero =>
    obtain rfl : size=0 := by omega
    exact ⟨s,by simp [rwLoop],by simp⟩
  | succ rounds ih =>
    by_cases hsize : size=0
    · subst hsize
      exact ⟨s,by simp [rwLoop],by simp⟩
    have hle := src.chunk_le s size
    have hlength : ((src.rest s).take (src.chunk s size)).length=src.chunk s size := by
      rw [length_take]
      exact Nat.min_eq_left (src.chunk_le_rest s size)
    rw [rwLoop,if_neg hsize]
    simp only [Source.read,hlength]
    by_cases hempty : src.rest s=[]
    · have hchunk : src.chunk s size=0 := by
        have := src.chunk_le_rest s size
        rw [hempty,length_nil] at this
        omega
      refine ⟨src.next s size,?_,?_⟩
      · rw [if_pos hchunk]
        simp [hempty]
      · rw [src.rest_next,hempty]
        simp
    · have hpos := src.chunk_pos s size (by omega) hempty
      obtain ⟨t,ht,hrest⟩ := ih (size-src.chunk s size) (done+src.chunk s size) (by omega)
        (buf++(src.rest s).take (src.chunk s size)) (src.next s size)
      have hsplit : (src.rest s).take size=(src.rest s).take (src.chunk s size)++
          ((src.rest s).drop (src.chunk s size)).take (size-src.chunk s size) := by
        rw [← take_add,Nat.add_sub_cancel' hle]
      refine ⟨t,?_,?_⟩
      · rw [if_neg (by omega)]
        simp only [Bool.false_eq_true,if_false,Source.read] at ht ⊢
        rw [ht,src.rest_next,hsplit,length_append,hlength]
        simp [Nat.add_assoc]
      · rw [hrest,src.rest_next,drop_drop,Nat.add_sub_cancel' hle]

theorem mpStreamReadExactly_source (src : Source σ) (size : ℕ) (s : σ) :
    ∃ t,mpStreamReadExactly isNonblocking src.read size s=
      ⟨((src.rest s).take size).length,0,(src.rest s).take size,t⟩∧
      src.rest t=(src.rest s).drop size := by
  obtain ⟨t,ht,hrest⟩ := rwLoop_source isNonblocking src size size 0 (Nat.le_refl _) [] s
  exact ⟨t,by simpa [mpStreamReadExactly,mpStreamRw] using ht,hrest⟩

/-! ## Writes -/

/-- A stream that is written. It takes a first part of the bytes of a write, or fails and takes
none. -/
structure Sink (σ : Type) where
  /-- The bytes that have reached the stream. -/
  sent : σ→List UInt8
  /-- `write` of the protocol. -/
  write : σ→List UInt8→Outcome×σ
  /-- No more is taken than there is. -/
  moved_le : ∀ {s bytes n t},write s bytes=(.moved n,t) → n ≤ bytes.length
  /-- What is taken has reached the stream. -/
  sent_moved : ∀ {s bytes n t},write s bytes=(.moved n,t) → sent t=sent s++bytes.take n
  /-- A failure leaves the stream as it is. -/
  sent_failed : ∀ {s bytes errno t},write s bytes=(.failed errno,t) → sent t=sent s
  errno_ne : ∀ {s bytes errno t},write s bytes=(.failed errno,t) → errno≠0

/-- The stream takes all bytes, in one write or in several that each take some. -/
inductive Takes (sink : Sink σ) : σ→List UInt8→σ→Prop where
  | nil (s : σ) : Takes sink s [] s
  /-- A first part is taken, and then the rest. -/
  | part {s t u : σ} {bytes : List UInt8} {n : ℕ} (hwrite : sink.write s bytes=(.moved n,t))
    (hn : 0 < n) (hrest : Takes sink t (bytes.drop n) u) : Takes sink s bytes u

variable {sink : Sink σ}

variable {s t : σ} {bytes : List UInt8}

/-- All bytes have then reached the stream. -/
theorem Takes.sent (h : Takes sink s bytes t) : sink.sent t=sink.sent s++bytes := by
  induction h with
  | nil s => simp
  | part hwrite hn hrest ih =>
    rw [ih,sink.sent_moved hwrite,append_assoc,take_append_drop]

/-- What the loop does with the rest of the bytes: it takes a first part of it. When it is the
whole rest, the stream has taken it without an error. -/
theorem rwLoop_sink (sink : Sink σ) (bytes : List UInt8)
    (rounds done : ℕ) (hrounds : (bytes.drop done).length ≤ rounds) (s : σ) :
    ∃ n errcode t,rwLoop isNonblocking false (fun s done _ => sink.write s (bytes.drop done)) rounds
        (bytes.drop done).length done s=⟨done+n,errcode,t⟩∧
      n ≤ (bytes.drop done).length∧sink.sent t=sink.sent s++(bytes.drop done).take n∧
      (n=(bytes.drop done).length → errcode=0∧Takes sink s (bytes.drop done) t) := by
  induction rounds generalizing done s with
  | zero =>
    have hnil : bytes.drop done=[] := length_eq_zero_iff.mp (by omega)
    exact ⟨0,0,s,rfl,by simp,by simp,fun _ => ⟨rfl,hnil▸.nil s⟩⟩
  | succ rounds ih =>
    by_cases hsize : (bytes.drop done).length=0
    · have hnil : bytes.drop done=[] := length_eq_zero_iff.mp hsize
      refine ⟨0,0,s,by rw [rwLoop,if_pos hsize]; rfl,by simp,by simp,fun _ => ⟨rfl,?_⟩⟩
      rw [hnil]
      exact .nil s
    rw [rwLoop,if_neg hsize]
    cases hwrite : sink.write s (bytes.drop done) with
    | mk outcome t =>
      cases outcome with
      | failed errno =>
        exact ⟨0,_,t,rfl,by simp,by simpa using sink.sent_failed hwrite,
          fun h => absurd h.symm hsize⟩
      | moved n =>
        by_cases hn : n=0
        · subst hn
          exact ⟨0,0,t,by simp,by simp,sink.sent_moved hwrite,fun h => absurd h.symm hsize⟩
        · have hle := sink.moved_le hwrite
          have hdrop : bytes.drop (done+n)=(bytes.drop done).drop n := by rw [drop_drop]
          have hlength : (bytes.drop (done+n)).length=(bytes.drop done).length-n := by
            rw [hdrop,length_drop]
          obtain ⟨m,errcode,u,hloop,hm,hsent,hall⟩ := ih (done+n) (by omega) t
          refine ⟨n+m,errcode,u,?_,by omega,?_,fun h => ?_⟩
          · simp only [if_neg hn,Bool.false_eq_true,if_false]
            rw [hlength] at hloop
            rw [hloop,Nat.add_assoc]
          · rw [hsent,sink.sent_moved hwrite,hdrop,append_assoc,← take_add]
          · obtain ⟨herr,htakes⟩ := hall (by omega)
            rw [hdrop] at htakes
            exact ⟨herr,.part hwrite (by omega) htakes⟩

theorem mpStreamWriteExactly_spec (sink : Sink σ) (bytes : List UInt8)
    (s : σ) : ∃ n errcode t,mpStreamWriteExactly isNonblocking sink.write bytes s=⟨n,errcode,t⟩∧
      n ≤ bytes.length∧sink.sent t=sink.sent s++bytes.take n∧
      (n=bytes.length → errcode=0∧Takes sink s bytes t) := by
  have h := rwLoop_sink isNonblocking sink bytes bytes.length 0 (Nat.le_refl _) s
  simpa [mpStreamWriteExactly,mpStreamRw] using h

theorem mpStreamWriteExactly_refused
    {errno : ℕ} (hbytes : bytes≠[]) (h : sink.write s bytes=(.failed errno,t)) :
    mpStreamWriteExactly isNonblocking sink.write bytes s=⟨0,errno,t⟩ := by
  obtain ⟨b,bytes,rfl⟩ := exists_cons_of_ne_nil hbytes
  rw [mpStreamWriteExactly,mpStreamRw,length_cons,rwLoop]
  simp [h]

/-- Nothing is moved and there is an error just then. -/
theorem mpStreamWriteExactly_failed {isNonblocking : ℕ→Bool} {errcode : ℕ} (herr : errcode≠0)
    (h : mpStreamWriteExactly isNonblocking sink.write bytes s=⟨0,errcode,t⟩) :
    ∃ errno,sink.write s bytes=(.failed errno,t) := by
  cases bytes with
  | nil =>
    cases h
    exact absurd rfl herr
  | cons b bytes =>
    rw [mpStreamWriteExactly,mpStreamRw,length_cons,rwLoop,drop_zero,
      if_neg (succ_ne_zero _)] at h
    cases hwrite : sink.write s (b::bytes) with
    | mk outcome u =>
      rw [hwrite] at h
      cases outcome with
      | failed errno =>
        simp only [Transfer.mk.injEq] at h
        exact ⟨errno,by rw [h.2.2]⟩
      | moved n =>
        by_cases hn : n=0
        · simp only [if_pos hn,Transfer.mk.injEq] at h
          exact absurd h.2.1.symm herr
        · have hlength : bytes.length+1-n=((b::bytes).drop n).length := by
            rw [length_drop,length_cons]
          obtain ⟨m,_,_,hloop,_,_,_⟩ := rwLoop_sink isNonblocking sink (b::bytes) bytes.length n
            (by rw [← hlength]; omega) u
          rw [← hlength] at hloop
          simp only [if_neg hn,Bool.false_eq_true,if_false,Nat.zero_add,hloop,
            Transfer.mk.injEq] at h
          omega

/-- The rest of the bytes is moved when the stream takes it. -/
theorem rwLoop_takes (bytes : List UInt8)
    {rest : List UInt8} (h : Takes sink s rest t) (rounds done : ℕ) (hrest : bytes.drop done=rest)
    (hrounds : rest.length ≤ rounds) :
    rwLoop isNonblocking false (fun s done _ => sink.write s (bytes.drop done)) rounds rest.length
      done s=⟨done+rest.length,0,t⟩ := by
  induction h generalizing rounds done with
  | nil s =>
    cases rounds with
    | zero => rfl
    | succ rounds => rfl
  | @part s t u rest n hwrite hn htakes ih =>
    have hle := sink.moved_le hwrite
    obtain ⟨rounds,rfl⟩ : ∃ r,rounds=r+1 := ⟨rounds-1,by omega⟩
    have hdrop : bytes.drop (done+n)=rest.drop n := by rw [← hrest,drop_drop]
    have hloop := ih rounds (done+n) hdrop (by rw [length_drop]; omega)
    rw [length_drop] at hloop
    rw [rwLoop,if_neg (by omega),hrest]
    have hpos : n≠0 := by omega
    simp only [hwrite,if_neg hpos,Bool.false_eq_true,if_false,hloop]
    rw [Nat.add_assoc,Nat.add_sub_cancel' hle]

theorem mpStreamWriteExactly_takes (h : Takes sink s bytes t) :
    mpStreamWriteExactly isNonblocking sink.write bytes s=⟨bytes.length,0,t⟩ := by
  have hloop := rwLoop_takes isNonblocking bytes h bytes.length 0 rfl (Nat.le_refl _)
  simpa [mpStreamWriteExactly,mpStreamRw] using hloop

end MicroPython.StreamRw
