import Mathlib.Algebra.Group.Nat.Defs
import Mathlib.Data.List.GetD
import MicroPython.InputMachine

/-!
# Notes of the voice module

Notes wait in a play list. Block by block, the samples of the first of them that still has some
are put into a buffer of 1024 bytes; how far a note is, is kept in whole milliseconds. There are
no files in the list here.
-/

namespace MicroPython.VoiceNotes

open Nat List InputMachine

/-- `MAX_SIMUL_MUSIC` -/
def maxSimulMusic : ℕ := 8

/-- `MUSIC_ISR_BLOCK_BUF_SIZE` -/
def musicIsrBlockBufSize : ℕ := 1024

/-- What goes wrong. -/
inductive Fault where
  | divisionByZero
  /-- A sample outside of `block_buf`. -/
  | blockBuf
  deriving DecidableEq

/-- The members of `codey_wav_info_t` that a note has, and how many samples have been written for
it, which the code does not keep. -/
structure Note where
  /-- `wav_id` -/
  wavId : UInt32
  /-- `note_freq` -/
  noteFreq : UInt32
  /-- `note_duration_ms`, what is left of the duration. -/
  noteDurationMs : UInt32
  /-- `louder` -/
  louder : UInt8
  /-- `start_play` -/
  startPlay : Bool
  /-- `play_duration_time_ms` -/
  playDurationTimeMs : UInt32
  /-- `play_buffer_stop_tick` -/
  playBufferStopTick : UInt32
  /-- The samples written so far. -/
  written : ℕ

/-- `wav_play_block_t` -/
structure Block where
  /-- `freq` -/
  freq : UInt32
  /-- `block_cnt` -/
  blockCnt : UInt32
  /-- `block_idx` -/
  blockIdx : UInt32
  /-- `block_buf` -/
  blockBuf : List UInt8

/-- The state of the module. -/
structure Voice where
  /-- `s_wav_id` -/
  wavId : UInt32
  /-- `s_music_data_header` -/
  musicData : List Note
  /-- `s_wav_play_block_buffer` -/
  block : Fin 2→Block

/-- A division of unsigned numbers. -/
def divide (a b : UInt32) : Except Fault UInt32 := if b=0 then .error .divisionByZero else .ok (a/b)

/-- A loop over `j`: a value is added to samples from a place on. The sums are listed as they
are before they are cut to eight bits. -/
def addSamples (value : ℕ) : ℕ→ℕ→List UInt8→Except Fault (List UInt8×List ℕ)
  | _,0,p => .ok (p,[])
  | i,n+1,p =>
    if h : i < p.length then do
      let sum := p[i].toNat+value
      let (p,sums) ← addSamples value (i+1) n (p.set i (.ofNat sum))
      .ok (p,sum::sums)
    else .error .blockBuf

/-- What is added at an index: nothing and the loudness in turn. -/
def noteValue (louder : UInt8) (i : ℕ) : ℕ := if 0=i%2 then 0 else 0xFF*louder.toNat/100

/-- The loop over `i`, with the number of samples left. -/
def mixLoop (louder : UInt8) (step : ℕ) : ℕ→ℕ→List UInt8→Except Fault (List UInt8×List ℕ)
  | _,0,p => .ok (p,[])
  | i,n+1,p => do
    let (p,sums) ← addSamples (noteValue louder i) (i*step) step p
    let (p,others) ← mixLoop louder step (i+1) n p
    .ok (p,sums++others)

/-- What a note does to a block. -/
structure Turn where
  node : Note
  /-- It had samples left. -/
  note : Bool
  /-- The buffer afterwards. -/
  p : List UInt8
  sums : List ℕ
  /-- `read_cnt*step` -/
  cnt : UInt32

/-- The stop tick is set at the first turn of a note. -/
def Note.start (node : Note) (millis : UInt32) : Note :=
  if node.startPlay then node
  else {node with
    playBufferStopTick := millis+node.playDurationTimeMs
    startPlay := true}

/-- The turn of a note in `move_music_to_block_buffer`. -/
def Note.turn (node : Note) (millis : UInt32) (p : List UInt8) : Except Fault Turn := do
  let lcmFreq := node.noteFreq
  let maxAlignReadCnt ← divide (1024*node.noteFreq) lcmFreq
  let step ← divide lcmFreq node.noteFreq
  let step := if 0=step then 1 else step
  let remainCnt := node.noteDurationMs*node.noteFreq/1000
  if remainCnt≠0 then do
    let readCnt := if remainCnt ≤ maxAlignReadCnt then remainCnt else maxAlignReadCnt
    let (p,sums) ← mixLoop node.louder step.toNat 0 readCnt.toNat p
    let ms ← divide (readCnt*1000) node.noteFreq
    .ok {
      node := {node with
        noteDurationMs := if ms≠0 then node.noteDurationMs-ms else 0
        written := node.written+readCnt.toNat}.start millis
      note := true
      p := p
      sums := sums
      cnt := readCnt*step}
  else
    .ok {
      node := {node with noteDurationMs := 0}.start millis
      note := false
      p := p
      sums := []
      cnt := 0}

/-- What a list of notes does to a block. -/
structure Moved where
  nodes : List Note
  /-- The frequency of the block, when it is set. -/
  freq : Option UInt32
  /-- The buffer. -/
  p : List UInt8
  sums : List ℕ
  /-- `read_cnt*step` of the note that was mixed. -/
  cnt : UInt32

/-- The loop of `move_music_to_block_buffer` over the list from the nth note on. Once a note has
been mixed the others are left alone. -/
def moveLoop (millis : ℕ→UInt32) : ℕ→List Note→List UInt8→Except Fault Moved
  | _,[],p => .ok ⟨[],none,p,[],0⟩
  | n,node::nodes,p => do
    let t ← node.turn (millis n) p
    if t.note then .ok ⟨t.node::nodes,some node.noteFreq,t.p,t.sums,t.cnt⟩
    else do
      let m ← moveLoop millis (n+1) nodes t.p
      .ok {m with
        nodes := t.node::m.nodes
        freq := m.freq.orElse fun _ => some node.noteFreq}

/-- `move_music_to_block_buffer`: the state, the sums and the value returned. -/
def Voice.moveMusicToBlockBuffer (v : Voice) (blockIdx inBlockIdx : Fin 2) (millis : ℕ→UInt32) :
    Except Fault (Voice×List ℕ×UInt32) := do
  let p := List.replicate musicIsrBlockBufSize 0
  let m ← moveLoop millis 0 v.musicData p
  let mixed : Block := ⟨m.freq.getD (v.block blockIdx).freq,0,0,m.p⟩
  let block := fun i => if i=blockIdx then mixed else v.block i
  let counted := {block inBlockIdx with
    blockCnt := if (block inBlockIdx).blockCnt < m.cnt then m.cnt
      else (block inBlockIdx).blockCnt}
  let block := fun i => if i=inBlockIdx then counted else block i
  .ok ({v with
    musicData := m.nodes
    block := block},m.sums,(block inBlockIdx).blockCnt)

/-- `reach_max_simul_music` -/
def reachMaxSimulMusic (header : List Note) : Bool := header.length≥maxSimulMusic

/-- `codey_voice_play_note`, and `codey_voice_play_note_to_stop` before it waits, in a module that
is initialised. -/
def Voice.playNote (v : Voice) (freq timeMs : UInt32) (louder : UInt8) (malloc : Bool) :
    Voice×Bool :=
  if timeMs=0∧freq=0 then (v,false)
  else if reachMaxSimulMusic v.musicData then (v,false)
  else if !malloc then (v,false)
  else
    ({v with
      wavId := v.wavId+1
      musicData := v.musicData++[{
        wavId := v.wavId
        noteFreq := freq*2
        noteDurationMs := timeMs
        louder := louder
        startPlay := false
        playDurationTimeMs := timeMs
        playBufferStopTick := 0
        written := 0}]},true)

/-- `remove_finish_voice_node` from the nth note on. -/
def removeFinishVoiceNode (millis : ℕ→UInt32) : ℕ→List Note→List Note
  | _,[] => []
  | n,node::nodes =>
    if 0=node.noteDurationMs∧millis n > node.playBufferStopTick then
      removeFinishVoiceNode millis (n+1) nodes
    else node::removeFinishVoiceNode millis (n+1) nodes

/-- What happens to the module. -/
inductive Op where
  /-- A note is played; `malloc` finds memory or not. -/
  | playNote (freq timeMs : UInt32) (louder : UInt8) (malloc : Bool)
  | moveMusic (blockIdx inBlockIdx : Fin 2) (millis : ℕ→UInt32)
  | removeFinish (millis : ℕ→UInt32)
  | stopPlay

/-- A step of the module, with the sums that are written. -/
def step (v : Voice) : Op→Except Fault (Voice×List ℕ)
  | .playNote freq timeMs louder malloc => .ok ((v.playNote freq timeMs louder malloc).1,[])
  | .moveMusic blockIdx inBlockIdx millis => do
    let (v,sums,_) ← v.moveMusicToBlockBuffer blockIdx inBlockIdx millis
    .ok (v,sums)
  | .removeFinish millis =>
    .ok ({v with musicData := removeFinishVoiceNode millis 0 v.musicData},[])
  | .stopPlay => .ok ({v with musicData := []},[])

section Mixing

/-- Samples of a buffer that has zeros from a place on. -/
theorem mixLoop_zeros {louder : UInt8} (n : ℕ) : ∀ {i : ℕ} {p : List UInt8},
    (∀ j,i≤j → p.getD j 0=0) → i+n≤p.length → (louder.toNat≤100∨i+n≤1) →
    ∃ p' sums,mixLoop louder 1 i n p=.ok (p',sums)∧∀ s∈sums,s≤255 := by
  induction n with
  | zero => exact fun _ _ _ => ⟨_,[],rfl,fun _ h => by cases h⟩
  | succ n ih =>
    intro i p hzero hlen hlouder
    have hi : i < p.length := by omega
    have hvalue : noteValue louder i≤255 := by
      rw [noteValue]
      split
      case isTrue => exact zero_le _
      case isFalse hodd => omega
    have hsample : p[i]=0 := by
      have hget := hzero i (Nat.le_refl i)
      rw [getD_eq_getElem _ _ hi] at hget
      exact hget
    have hadd : addSamples (noteValue louder i) (i*1) 1 p=
        .ok (p.set i (.ofNat (noteValue louder i)),[noteValue louder i]) := by
      rw [Nat.mul_one,addSamples,dif_pos hi,hsample]
      rw [UInt8.toNat_zero,Nat.zero_add]
      rfl
    obtain ⟨p',sums,hmix,hsums⟩ := @ih (i+1) (p.set i (.ofNat (noteValue louder i))) (fun j hj => by
        rw [getD_eq_getElem?_getD,List.getElem?_set_ne (by omega),←getD_eq_getElem?_getD]
        exact hzero j (by omega))
      (by rw [length_set]; omega) (by omega)
    refine ⟨p',noteValue louder i::sums,?_,fun s hs => ?_⟩
    · rw [mixLoop,hadd]
      change (mixLoop louder 1 (i+1) n _ >>= _)=_
      rw [hmix]
      rfl
    · rcases mem_cons.mp hs with rfl | hs
      · exact hvalue
      · exact hsums s hs

end Mixing

section Turns

variable {node : Note} {p : List UInt8}

/-- The samples of an empty buffer. -/
theorem getD_zeros (n i : ℕ) : (List.replicate n (0 : UInt8)).getD i 0=0 := by
  rw [getD_eq_getElem?_getD]
  exact List.getElem?_getD_replicate_default_eq _ _ i

/-- A frequency divided by itself. -/
theorem divide_self {f : UInt32} (hf : f≠0) : divide f f=.ok 1 := by
  have hpos : 0 < f.toNat := Nat.pos_of_ne_zero fun h => hf (UInt32.toNat_inj.mp h)
  rw [divide,if_neg hf]
  refine congrArg Except.ok (UInt32.toNat_inj.mp ?_)
  rw [UInt32.toNat_div]
  exact Nat.div_self hpos

theorem turn_rest (hf : node.noteFreq≠0)
    (hrest : (node.noteDurationMs*node.noteFreq/1000 : UInt32)=0) (millis : UInt32) :
    node.turn millis p=.ok ⟨{node with noteDurationMs := 0}.start millis,false,p,[],0⟩ := by
  obtain ⟨m,hm⟩ : ∃ m,divide (1024*node.noteFreq) node.noteFreq=.ok m := ⟨_,if_neg hf⟩
  simp only [Note.turn,hm,divide_self hf,hrest,bind,Except.bind]
  rfl

/-- The samples left of a note. -/
theorem remain_toNat (h : node.noteDurationMs.toNat*node.noteFreq.toNat < 2^32) :
    (node.noteDurationMs*node.noteFreq/1000 : UInt32).toNat=
      node.noteDurationMs.toNat*node.noteFreq.toNat/1000 := by
  rw [UInt32.toNat_div,UInt32.toNat_mul,mod_eq_of_lt h]
  rfl

/-- A turn of a note with samples left: as many as fit into a block are written, and as many
whole milliseconds as they take are over. -/
theorem turn_mix (hf : node.noteFreq≠0) (hblock : 1024*node.noteFreq.toNat < 2^32)
    {remain : ℕ} (hremain : (node.noteDurationMs*node.noteFreq/1000 : UInt32).toNat=remain)
    (hpos : 0 < remain) (hlouder : node.louder.toNat≤100∨remain≤1) (millis : UInt32) :
    ∃ t,node.turn millis (List.replicate musicIsrBlockBufSize 0)=.ok t∧t.note=true∧
      (∀ s∈t.sums,s≤255)∧∃ ms : UInt32,ms.toNat=min remain 1024*1000/node.noteFreq.toNat∧
      t.node={node with
        noteDurationMs := if ms≠0 then node.noteDurationMs-ms else 0
        written := node.written+min remain 1024}.start millis := by
  have hfpos : 0 < node.noteFreq.toNat := Nat.pos_of_ne_zero fun h => hf (UInt32.toNat_inj.mp h)
  obtain ⟨maxAlign,hmaxAlign,hmax⟩ : ∃ m,divide (1024*node.noteFreq) node.noteFreq=.ok m∧
      m.toNat=1024 := by
    refine ⟨_,if_neg hf,?_⟩
    rw [UInt32.toNat_div,UInt32.toNat_mul]
    change 1024*node.noteFreq.toNat%2^32/_=_
    rw [mod_eq_of_lt hblock]
    exact Nat.mul_div_cancel _ hfpos
  generalize hremainCnt : node.noteDurationMs*node.noteFreq/1000=remainCnt
  rw [hremainCnt] at hremain
  have hne : remainCnt≠0 := fun h => by
    rw [h] at hremain
    exact absurd hremain (Nat.ne_of_lt hpos)
  generalize hreadCnt : (if remainCnt ≤ maxAlign then remainCnt else maxAlign)=readCnt
  have hread : readCnt.toNat=min remain 1024 := by
    rw [←hreadCnt]
    split
    case isTrue hle =>
      rw [UInt32.le_iff_toNat_le] at hle
      omega
    case isFalse hlt =>
      rw [UInt32.le_iff_toNat_le] at hlt
      omega
  obtain ⟨ms,hms,hmsNat⟩ : ∃ ms,divide (readCnt*1000) node.noteFreq=.ok ms∧
      ms.toNat=min remain 1024*1000/node.noteFreq.toNat := by
    refine ⟨_,if_neg hf,?_⟩
    rw [UInt32.toNat_div,UInt32.toNat_mul,hread]
    change min remain 1024*1000%2^32/_=_
    rw [mod_eq_of_lt (by omega)]
  obtain ⟨p',sums,hmix,hsums⟩ := @mixLoop_zeros node.louder readCnt.toNat 0
    (List.replicate musicIsrBlockBufSize 0)
    (fun j _ => getD_zeros _ j)
    (by rw [length_replicate,hread]; change _≤1024; omega) (by rw [hread]; omega)
  have hone : (if 0=(1 : UInt32) then 1 else 1 : UInt32).toNat=1 := rfl
  refine ⟨⟨{node with
      noteDurationMs := if ms≠0 then node.noteDurationMs-ms else 0
      written := node.written+readCnt.toNat}.start millis,true,p',sums,readCnt*1⟩,
    ?_,rfl,hsums,ms,hmsNat,?_⟩
  · simp only [Note.turn,hmaxAlign,divide_self hf,hremainCnt,hreadCnt,hms,bind,Except.bind,
      if_pos hne,hone,hmix]
    rfl
  · rw [hread]

end Turns

/-- The blocks before the last one, of a note with a number of thousandths of samples. -/
def fullBlocks (total : ℕ) : ℕ := (total/1000-1)/1024

/-- The thousandths of samples that are left over at the last block: those that the note has, and
those of the milliseconds that each full block has begun but not completed. -/
def leftOver (total f : ℕ) : ℕ := total%1000+fullBlocks total*(1024000%f)

/-- The milliseconds end with the samples: nothing is left over, or less than a sample in the last
millisecond. -/
def EndsTogether (timeMs f : ℕ) : Prop :=
  timeMs*f < 1000∨leftOver (timeMs*f) f < 1000∧
    (leftOver (timeMs*f) f=0∨timeMs=fullBlocks (timeMs*f)*(1024000/f)+1)

instance (timeMs f : ℕ) : Decidable (EndsTogether timeMs f) := inferInstanceAs (Decidable (_∨_))

section Schedule

variable {d f k D : ℕ}

/-- The thousandths of samples left after some full blocks. -/
theorem left_eq (hD : D+k*(1024000/f)=d) : D*f+k*1024000=d*f+k*(1024000%f) := by
  have hblock : k*(f*(1024000/f))+k*(1024000%f)=k*1024000 := by
    rw [←Nat.mul_add,div_add_mod]
  have hprod : d*f=D*f+k*(f*(1024000/f)) := by
    rw [←hD,Nat.add_mul,Nat.mul_assoc,Nat.mul_comm (1024000/f) f]
  omega

theorem left_div (hD : D+k*(1024000/f)=d) (hk : k≤fullBlocks (d*f))
    (hover : leftOver (d*f) f < 1000) :
    D*f/1000+1024*k=d*f/1000∧D*f%1000=d*f%1000+k*(1024000%f) := by
  have hleft := left_eq hD
  have hmono : k*(1024000%f)≤fullBlocks (d*f)*(1024000%f) := Nat.mul_le_mul_right _ hk
  rw [leftOver] at hover
  rw [fullBlocks] at hk
  omega

/-- A block that is full takes at least a millisecond, for the whole note to end in time. -/
theorem freq_le (hblocks : 0 < fullBlocks (d*f)) (hover : leftOver (d*f) f < 1000) : f≤1024000 := by
  refine Nat.le_of_not_lt fun hlt => ?_
  have hmono := Nat.mul_le_mul_right (1024000%f) hblocks
  rw [leftOver] at hover
  rw [mod_eq_of_lt hlt] at hmono hover
  omega

end Schedule

/-- A note that was admitted with a duration for which samples and milliseconds end together. -/
structure Note.Fits (node : Note) : Prop where
  freq : node.noteFreq≠0
  /-- Its thousandths of samples have 32 bits. -/
  total : node.playDurationTimeMs.toNat*node.noteFreq.toNat < 2^32
  /-- Its loudness is a percentage, or it has no second sample. -/
  louder : node.louder.toNat≤100∨node.playDurationTimeMs.toNat*node.noteFreq.toNat < 2000
  ends : EndsTogether node.playDurationTimeMs.toNat node.noteFreq.toNat

/-- The samples that a note has. -/
def Note.own (node : Note) : ℕ := node.playDurationTimeMs.toNat*node.noteFreq.toNat/1000

/-- Some full blocks of a note have been written. -/
structure Note.Plays (node : Note) (k : ℕ) : Prop where
  block : k≤fullBlocks (node.playDurationTimeMs.toNat*node.noteFreq.toNat)
  left : node.noteDurationMs.toNat+k*(1024000/node.noteFreq.toNat)=node.playDurationTimeMs.toNat
  written : node.written=1024*k
  /-- It has begun with the first block. -/
  started : node.startPlay=true → 0 < k

/-- A note is finished. -/
structure Note.Finished (node : Note) : Prop where
  left : node.noteDurationMs=0
  /-- All samples have been written. -/
  written : node.written=node.own

/-- What holds of each note in the list. -/
structure Note.Good (node : Note) : Prop where
  /-- It was admitted so. -/
  fits : node.Fits
  way : (∃ k,node.Plays k)∨node.Finished

section Good

variable {node : Note}

/-- The start of a note leaves all but the tick and the mark. -/
theorem start_eq (node : Note) (millis : UInt32) :
    ∃ tick,node.start millis={node with
      playBufferStopTick := tick
      startPlay := true} := by
  rw [Note.start]
  cases hstart : node.startPlay with
  | true =>
    refine ⟨node.playBufferStopTick,?_⟩
    rw [if_pos rfl,←hstart]
  | false => exact ⟨_,rfl⟩

theorem good_of_finished (h : node.Fits) (hwritten : node.written=node.own)
    (hleft : node.noteDurationMs=0) (millis : UInt32) : (node.start millis).Good := by
  obtain ⟨tick,hstart⟩ := start_eq node millis
  rw [hstart]
  exact ⟨⟨h.freq,h.total,h.louder,h.ends⟩,.inr ⟨hleft,hwritten⟩⟩

/-- A turn of a note whose samples have all been written. -/
theorem turn_finished (h : node.Fits) (hwritten : node.written=node.own)
    (hless : node.noteDurationMs.toNat*node.noteFreq.toNat < 1000) (millis : UInt32) :
    ∃ t,node.turn millis (List.replicate musicIsrBlockBufSize 0)=.ok t∧(∀ s∈t.sums,s≤255)∧
      (t.note=false → t.p=List.replicate musicIsrBlockBufSize 0)∧t.node.Good := by
  have hrest : (node.noteDurationMs*node.noteFreq/1000 : UInt32)=0 := by
    refine UInt32.toNat_inj.mp ?_
    rw [remain_toNat (by omega)]
    exact div_eq_of_lt hless
  refine ⟨_,turn_rest h.freq hrest millis,nofun,fun _ => rfl,?_⟩
  exact @good_of_finished {node with noteDurationMs := 0} ⟨h.freq,h.total,h.louder,h.ends⟩
    hwritten rfl millis

/-- The frequency of a note with samples does not overflow when it is multiplied by the size of
a block. -/
theorem freq_lt {d f : ℕ} (hsome : 1000≤d*f) (hover : leftOver (d*f) f < 1000) : 1024*f < 2^32 := by
  rcases Nat.eq_zero_or_pos (fullBlocks (d*f)) with hone | hblocks
  · have hd : 0 < d := Nat.pos_of_ne_zero fun hzero => by
      rw [hzero,Nat.zero_mul] at hsome
      omega
    have hle := Nat.le_mul_of_pos_left f hd
    rw [fullBlocks] at hone
    omega
  · have hle := freq_le hblocks hover
    omega

/-- A turn of a note on its way, which goes on by a block or finishes. -/
theorem turn_plays {k : ℕ} (h : node.Fits) (hk : node.Plays k) (millis : UInt32) :
    ∃ t,node.turn millis (List.replicate musicIsrBlockBufSize 0)=.ok t∧(∀ s∈t.sums,s≤255)∧
      (t.note=false → t.p=List.replicate musicIsrBlockBufSize 0)∧t.node.Good := by
  generalize hd : node.playDurationTimeMs.toNat=d
  generalize hf : node.noteFreq.toNat=f
  generalize hD : node.noteDurationMs.toNat=D
  have hfpos : 0 < f := by
    rw [←hf]
    exact Nat.pos_of_ne_zero fun hzero => h.freq (UInt32.toNat_inj.mp hzero)
  have hown : node.own=d*f/1000 := by rw [Note.own,hd,hf]
  have hblock := hk.block
  have hleft := hk.left
  have htotal := h.total
  have hlouder := h.louder
  have hends := h.ends
  rw [hd,hf] at hblock htotal hlouder hends
  rw [hd,hf,hD] at hleft
  have hsum := left_eq hleft
  rcases Nat.lt_or_ge (d*f) 1000 with hnone | hsome
  · -- There is no sample at all.
    have hzero : k=0 := by
      rw [fullBlocks] at hblock
      omega
    rw [hzero,Nat.zero_mul,Nat.zero_mul] at hsum
    refine turn_finished h ?_ (by rw [hD,hf]; omega) millis
    rw [hk.written,hzero,hown]
    omega
  obtain ⟨hover,hlast⟩ := hends.resolve_left (Nat.not_lt.mpr hsome)
  have hdiv := left_div hleft hblock hover
  have hDle : D*f≤d*f := Nat.mul_le_mul_right f (by omega)
  have hremain : (node.noteDurationMs*node.noteFreq/1000 : UInt32).toNat=D*f/1000 := by
    rw [remain_toNat (by rw [hD,hf]; omega),hD,hf]
  have hpos : 0 < D*f/1000 := by
    rw [fullBlocks] at hblock
    omega
  obtain ⟨t,hturn,hnote,hsums,ms,hms,hnode⟩ := turn_mix h.freq
    (by rw [hf]; exact freq_lt hsome hover) hremain hpos (by omega) millis
  refine ⟨t,hturn,hsums,fun hfalse => (by rw [hnote] at hfalse; cases hfalse),?_⟩
  rw [hf] at hms
  rw [hnode]
  rcases Nat.lt_or_ge k (fullBlocks (d*f)) with hmore | hend
  · -- The block is full.
    have hfull : min (D*f/1000) 1024=1024 := by
      rw [fullBlocks] at hmore
      omega
    rw [hfull] at hms ⊢
    have hfle := freq_le (by omega) hover
    have hmspos : 0 < 1024000/f := div_pos hfle hfpos
    have hmsle : 1024000/f≤D := by
      refine Nat.le_of_mul_le_mul_right ?_ hfpos
      have hmul := Nat.div_mul_le_self 1024000 f
      omega
    have hne : ms≠0 := fun hzero => by
      rw [hzero] at hms
      change 0=1024000/f at hms
      omega
    obtain ⟨tick,hstart⟩ := start_eq {node with
      noteDurationMs := if ms≠0 then node.noteDurationMs-ms else 0
      written := node.written+1024} millis
    rw [hstart]
    refine ⟨⟨h.freq,h.total,h.louder,h.ends⟩,.inl ⟨k+1,?_,?_,?_,fun _ => succ_pos k⟩⟩
    · rw [hd,hf]
      exact hmore
    · have hle : ms≤node.noteDurationMs := by
        rw [UInt32.le_iff_toNat_le,hms,hD]
        exact hmsle
      rw [if_pos hne,UInt32.toNat_sub_of_le _ _ hle,hms,hD,hf,hd,Nat.add_mul,Nat.one_mul]
      change D-1024000/f+_=d
      omega
    · rw [hk.written,Nat.mul_add]
  · -- The last block.
    have hkeq : k=fullBlocks (d*f) := Nat.le_antisymm hblock hend
    have hshort : min (D*f/1000) 1024=D*f/1000 := by
      rw [fullBlocks] at hkeq
      omega
    rw [hshort] at hms ⊢
    refine @good_of_finished {node with
      noteDurationMs := if ms≠0 then node.noteDurationMs-ms else 0
      written := node.written+D*f/1000} ⟨h.freq,h.total,h.louder,h.ends⟩ ?_ ?_ millis
    · change node.written+D*f/1000=node.own
      rw [hk.written,hown]
      omega
    · have hmod : D*f%1000=leftOver (d*f) f := by rw [hdiv.2,hkeq,leftOver]
      rcases Nat.eq_zero_or_pos (leftOver (d*f) f) with hexact | hsurplus
      · have hall : ms=node.noteDurationMs := by
          refine UInt32.toNat_inj.mp ?_
          rw [hms,hD,show D*f/1000*1000=D*f by omega]
          exact Nat.mul_div_cancel D hfpos
        split
        case isTrue => rw [hall,UInt32.sub_self]
        case isFalse => rfl
      · have hone : D=1 := by
          rcases hlast with hexact | hlast
          · omega
          · rw [←hkeq] at hlast
            omega
        rw [hone,Nat.one_mul] at hmod hms
        have hzero : ms=0 := by
          refine UInt32.toNat_inj.mp ?_
          rw [hms]
          exact div_eq_of_lt (by omega)
        rw [hzero]
        rfl

/-- A turn of a note keeps what holds of it. -/
theorem turn_good (h : node.Good) (millis : UInt32) :
    ∃ t,node.turn millis (List.replicate musicIsrBlockBufSize 0)=.ok t∧(∀ s∈t.sums,s≤255)∧
      (t.note=false → t.p=List.replicate musicIsrBlockBufSize 0)∧t.node.Good := by
  rcases h.way with ⟨k,hk⟩ | hfinished
  · exact turn_plays h.fits hk millis
  · refine turn_finished h.fits hfinished.written ?_ millis
    rw [hfinished.left]
    change 0*_ < 1000
    omega

/-- A note that has been started is finished when its samples have been written. -/
theorem good_finished (h : node.Good) (hstart : node.startPlay=true) :
    node.noteDurationMs=0↔node.written=node.own := by
  rcases h.way with ⟨k,hk⟩ | hfinished
  · have hkpos := hk.started hstart
    have hblock := hk.block
    have hleft := left_eq hk.left
    rw [fullBlocks] at hblock
    refine iff_of_false (fun hzero => ?_) (fun heq => ?_)
    · rw [hzero] at hleft
      change 0*_+_=_ at hleft
      omega
    · rw [hk.written,Note.own] at heq
      omega
  · exact iff_of_true hfinished.left hfinished.written

end Good

/-- A note for which everything goes well: it has a frequency, its thousandths of samples have 32
bits, its loudness is a percentage when it is heard, and its samples and milliseconds end
together. -/
def NoteFits (freq timeMs : UInt32) (louder : UInt8) : Prop :=
  freq*2≠0∧timeMs.toNat*(freq*2).toNat < 2^32∧(louder.toNat≤100∨timeMs.toNat*(freq*2).toNat < 2000)∧
    EndsTogether timeMs.toNat (freq*2).toNat

instance (freq timeMs : UInt32) (louder : UInt8) : Decidable (NoteFits freq timeMs louder) :=
  inferInstanceAs (Decidable (_∧_))

/-- The notes that are admitted fit. -/
def OpFits : Op→Prop
  | .playNote freq timeMs louder _ => (timeMs=0∧freq=0)∨NoteFits freq timeMs louder
  | _ => True

/-- Each note that has been started is marked as finished exactly when its samples have been
written. -/
def MarkedRight (v : Voice) : Prop :=
  ∀ node∈v.musicData,node.startPlay=true → (node.noteDurationMs=0↔node.written=node.own)

section Runs

/-- Every note of a list is good. -/
def AllGood (nodes : List Note) : Prop := ∀ node∈nodes,node.Good

/-- A block is filled from a list of good notes. -/
theorem moveLoop_good (millis : ℕ→UInt32) (nodes : List Note) : ∀ n : ℕ,AllGood nodes →
    ∃ m,moveLoop millis n nodes (List.replicate musicIsrBlockBufSize 0)=.ok m∧
      (∀ s∈m.sums,s≤255)∧AllGood m.nodes := by
  induction nodes with
  | nil => exact fun _ h => ⟨_,rfl,nofun,h⟩
  | cons node nodes ih =>
    intro n h
    have hothers : AllGood nodes := fun other hmem => h other (mem_cons_of_mem _ hmem)
    obtain ⟨t,hturn,hsums,hp,hgood⟩ := turn_good (h node mem_cons_self) (millis n)
    rw [moveLoop,hturn]
    cases hnote : t.note with
    | true =>
      refine ⟨⟨t.node::nodes,some node.noteFreq,t.p,t.sums,t.cnt⟩,?_,hsums,?_⟩
      · change (if t.note then _ else _)=_
        rw [if_pos hnote]
      · intro other hmem
        rcases mem_cons.mp hmem with rfl | hmem
        · exact hgood
        · exact hothers other hmem
    | false =>
      obtain ⟨m,hrest,hrestSums,hrestGood⟩ := ih (n+1) hothers
      refine ⟨{m with
        nodes := t.node::m.nodes
        freq := m.freq.orElse fun _ => some node.noteFreq},?_,hrestSums,?_⟩
      · change (if t.note then _ else _)=_
        rw [hnote,if_neg Bool.false_ne_true,hp hnote,hrest]
        rfl
      · intro other hmem
        rcases mem_cons.mp hmem with rfl | hmem
        · exact hgood
        · exact hrestGood other hmem

/-- What is left in the list was there. -/
theorem mem_of_mem_removeFinish (millis : ℕ→UInt32) (nodes : List Note) : ∀ n : ℕ,
    ∀ node∈removeFinishVoiceNode millis n nodes,node∈nodes := by
  induction nodes with
  | nil => exact fun _ _ h => h
  | cons first nodes ih =>
    intro n node hmem
    rw [removeFinishVoiceNode] at hmem
    split at hmem
    case isTrue => exact mem_cons_of_mem _ (ih (n+1) node hmem)
    case isFalse =>
      rcases mem_cons.mp hmem with rfl | hmem
      · exact mem_cons_self
      · exact mem_cons_of_mem _ (ih (n+1) node hmem)

/-- A note that fits is good when it is put into the list. -/
theorem playNote_good {v : Voice} (h : AllGood v.musicData) {freq timeMs : UInt32}
    {louder : UInt8} (hfits : (timeMs=0∧freq=0)∨NoteFits freq timeMs louder) (malloc : Bool) :
    AllGood (v.playNote freq timeMs louder malloc).1.musicData := by
  rw [Voice.playNote]
  split
  case isTrue => exact h
  case isFalse hadmitted =>
    split
    case isTrue => exact h
    case isFalse =>
      split
      case isTrue => exact h
      case isFalse =>
        obtain ⟨hfreq,htotal,hlouder,hends⟩ := hfits.resolve_left hadmitted
        intro node hmem
        rcases mem_append.mp hmem with hmem | hmem
        · exact h node hmem
        · rw [mem_singleton.mp hmem]
          refine ⟨⟨hfreq,htotal,hlouder,hends⟩,.inl ⟨0,zero_le _,?_,rfl,nofun⟩⟩
          rw [Nat.zero_mul]
          rfl

/-- A step keeps all notes good and writes sums of eight bits. -/
theorem step_good {v : Voice} (h : AllGood v.musicData) {op : Op} (hop : OpFits op) :
    ∃ v' sums,step v op=.ok (v',sums)∧(∀ s∈sums,s≤255)∧AllGood v'.musicData := by
  cases op with
  | playNote freq timeMs louder malloc =>
    exact ⟨_,_,rfl,nofun,playNote_good h hop malloc⟩
  | moveMusic blockIdx inBlockIdx millis =>
    obtain ⟨m,hmoved,hsums,hgood⟩ := moveLoop_good millis v.musicData 0 h
    rw [step,Voice.moveMusicToBlockBuffer,hmoved]
    exact ⟨_,_,rfl,hsums,hgood⟩
  | removeFinish millis =>
    exact ⟨_,_,rfl,nofun,fun node hmem =>
      h node (mem_of_mem_removeFinish millis v.musicData 0 node hmem)⟩
  | stopPlay => exact ⟨_,_,rfl,nofun,nofun⟩

/-- A run keeps all notes good and writes sums of eight bits. -/
theorem run_good (ops : List Op) : ∀ {v : Voice},AllGood v.musicData → (∀ op∈ops,OpFits op) →
    ∃ v' sums,run step v ops=.ok (v',sums)∧(∀ s∈sums.flatten,s≤255)∧AllGood v'.musicData := by
  induction ops with
  | nil => exact fun h _ => ⟨_,[],rfl,nofun,h⟩
  | cons op ops ih =>
    intro v h hops
    obtain ⟨v',sums,hstep,hsums,hgood⟩ := step_good h (hops op mem_cons_self)
    obtain ⟨v'',others,hrun,hothers,hgood'⟩ :=
      ih hgood fun op hop => hops op (mem_cons_of_mem _ hop)
    refine ⟨v'',sums::others,run_cons_eq_ok.mpr ⟨v',sums,others,hstep,hrun,rfl⟩,?_,hgood'⟩
    intro s hs
    rw [flatten_cons] at hs
    rcases mem_append.mp hs with hs | hs
    · exact hsums s hs
    · exact hothers s hs

/-- When the notes that are admitted fit, no run divides by zero or leaves the buffer, all sums
have eight bits, and in every state reached a started note is marked as finished exactly when
its samples have been written. -/
theorem voice_marksRight (v : Voice) (hempty : v.musicData=[]) (ops : List Op)
    (hops : ∀ op∈ops,OpFits op) :
    ∃ v' sums,run step v ops=.ok (v',sums)∧(∀ s∈sums.flatten,s≤255)∧MarkedRight v' := by
  have hgood : AllGood v.musicData := by
    rw [hempty]
    exact nofun
  obtain ⟨v',sums,hrun,hsums,hgood'⟩ := run_good ops hgood hops
  exact ⟨v',sums,hrun,hsums,fun node hmem => good_finished (hgood' node hmem)⟩

/-- A module without notes. -/
def idle : Voice := ⟨0,[],fun _ => ⟨0,0,0,[]⟩⟩

/-- A block is filled. -/
def fill : Op := .moveMusic 0 0 fun _ => 0

/-- Two seconds of 500 Hertz at a third of the loudness. -/
theorem voice_marksRight_tone :
    ∃ v' sums,run step idle [.playNote 500 2000 30 true,fill,fill,.removeFinish fun _ => 3000]=
      .ok (v',sums)∧(∀ s∈sums.flatten,s≤255)∧MarkedRight v' :=
  voice_marksRight idle rfl _ (by
    intro op hop
    rcases List.mem_cons.mp hop with rfl | hop
    · exact .inr (by decide)
    · rcases List.mem_cons.mp hop with rfl | hop
      · trivial
      · rcases List.mem_cons.mp hop with rfl | hop
        · trivial
        · rw [List.mem_singleton.mp hop]
          trivial)

/-- What can be seen of the notes after a run: whether each has been started, the milliseconds
left, the samples written and those it has. -/
def marks (r : Except Fault (Voice×List (List ℕ))) : List (Bool×UInt32×ℕ×ℕ) :=
  match r with
  | .ok (v,_) => v.musicData.map fun node =>
    (node.startPlay,node.noteDurationMs,node.written,node.own)
  | .error _ => []

/-- A note with milliseconds left is not marked when all of its samples have been written. -/
theorem not_markedRight {r : Except Fault (Voice×List (List ℕ))} {left : UInt32} {samples : ℕ}
    (h : marks r=[(true,left,samples,samples)]) (hleft : left≠0) :
    ∃ v' sums,r=.ok (v',sums)∧¬MarkedRight v' := by
  cases r with
  | error e => cases h
  | ok r =>
    refine ⟨r.1,r.2,rfl,fun hright => ?_⟩
    have hmem : (true,left,samples,samples)∈marks (.ok r) := by
      rw [h]
      exact mem_singleton_self _
    obtain ⟨node,hnode,heq⟩ := mem_map.mp hmem
    have hparts := Prod.mk.inj heq
    have hrest := Prod.mk.inj hparts.2
    have hcounts := Prod.mk.inj hrest.2
    have hzero := (hright node hnode hparts.1).mpr (hcounts.1.trans hcounts.2.symm)
    exact hleft (hrest.1.symm.trans hzero)

/-- A note of one millisecond without a frequency is admitted, and then divided by. A second of
one Hertz less a millisecond is not marked when its only sample has been written. -/
theorem voice_notRight : run step idle [.playNote 0 1 30 true,fill]=.error .divisionByZero∧
      ∃ v' sums,run step idle [.playNote 1 999 30 true,fill]=.ok (v',sums)∧ ¬MarkedRight v' := by
  refine ⟨rfl,@not_markedRight _ 499 1 ?_ (by decide)⟩
  decide +kernel

end Runs

end MicroPython.VoiceNotes
