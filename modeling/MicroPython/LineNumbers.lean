import Mathlib.Data.List.Induction
import Mathlib.Data.Nat.Bitwise

/-!
# The line numbers of the bytecode

Each new source line is written into the code info as the bytes of code and the lines to skip,
in entries of one or two bytes. The virtual machine walks the entries up to the place of an
exception to find its line.
-/

namespace MicroPython.LineNumbers

open Nat List

/-- The loop of `emit_write_code_info_bytes_lines`. Every turn skips a byte or a line, which
bounds the turns. -/
def writeLoop : ℕ→ℕ→ℕ→List ℕ
  | 0,_,_ => []
  | turns+1,bytesToSkip,linesToSkip =>
    if 0 < bytesToSkip∨0 < linesToSkip then
      if linesToSkip ≤ 6∨0xf < bytesToSkip then
        -- 0b0LLBBBBB: no lines are skipped before all bytes are.
        let b := min bytesToSkip 0x1f
        let l := if b < bytesToSkip then 0 else min linesToSkip 0x3
        (b ||| (l <<< 5))::writeLoop turns (bytesToSkip-b) (linesToSkip-l)
      else
        -- 0b1LLLBBBB 0bLLLLLLLL: the low bits of the lines in the second byte.
        let b := min bytesToSkip 0xf
        let l := min linesToSkip 0x7ff
        (0x80 ||| b ||| ((l >>> 4) &&& 0x70))::(l &&& 0xff)::
          writeLoop turns (bytesToSkip-b) (linesToSkip-l)
    else []

/-- `emit_write_code_info_bytes_lines`. -/
def emitWriteCodeInfoBytesLines (bytesToSkip linesToSkip : ℕ) : List ℕ :=
  writeLoop (bytesToSkip+linesToSkip) bytesToSkip linesToSkip

/-- What the emitter keeps of the source lines. -/
structure Emit where
  /-- The entries written so far. -/
  codeInfo : List ℕ
  /-- `last_source_line_offset`. -/
  lastSourceLineOffset : ℕ
  /-- `last_source_line`. -/
  lastSourceLine : ℕ

/-- The start of a pass. -/
def startPass : Emit where
  codeInfo := []
  lastSourceLineOffset := 0
  lastSourceLine := 1

/-- `mp_emit_bc_set_source_line` at an offset of the bytecode. -/
def mpEmitBcSetSourceLine (optimise : ℕ) (emit : Emit) (bytecodeOffset sourceLine : ℕ) : Emit :=
  if 3 ≤ optimise then emit
  else if emit.lastSourceLine < sourceLine then {
    codeInfo := emit.codeInfo++emitWriteCodeInfoBytesLines
      (bytecodeOffset-emit.lastSourceLineOffset) (sourceLine-emit.lastSourceLine)
    lastSourceLineOffset := bytecodeOffset
    lastSourceLine := sourceLine }
  else emit

/-- The emitter after some source lines, each with its offset. -/
def setSourceLines (optimise : ℕ) (lines : List (ℕ×ℕ)) : Emit :=
  lines.foldl (fun emit line => mpEmitBcSetSourceLine optimise emit line.1 line.2) startPass

/-- The line numbers of a function, which `mp_emit_bc_end_pass` ends with a zero. -/
def lineTable (optimise : ℕ) (lines : List (ℕ×ℕ)) : List ℕ :=
  (setSourceLines optimise lines).codeInfo++[0]

/-- The loop of the virtual machine over the line numbers, or nothing when it leaves them. -/
def sourceLineLoop : List ℕ→ℕ→ℕ→Option ℕ
  | [],_,_ => none
  | c::ip,bc,sourceLine =>
    if c=0 then some sourceLine
    else if c &&& 0x80=0 then
      if c &&& 0x1f ≤ bc then
        sourceLineLoop ip (bc-(c &&& 0x1f)) (sourceLine+(c >>> 5))
      else some sourceLine
    else
      match ip with
      | [] => none
      | c'::ip =>
        if c &&& 0xf ≤ bc then
          sourceLineLoop ip (bc-(c &&& 0xf)) (sourceLine+(((c <<< 4) &&& 0x700) ||| c'))
        else some sourceLine

/-- A turn of the loop. -/
theorem sourceLineLoop_cons (c : ℕ) (ip : List ℕ) (bc sourceLine : ℕ) :
    sourceLineLoop (c::ip) bc sourceLine=
      if c=0 then some sourceLine
      else if c &&& 0x80=0 then
        if c &&& 0x1f ≤ bc then
          sourceLineLoop ip (bc-(c &&& 0x1f)) (sourceLine+(c >>> 5))
        else some sourceLine
      else
        match ip with
        | [] => none
        | c'::ip =>
          if c &&& 0xf ≤ bc then
            sourceLineLoop ip (bc-(c &&& 0xf)) (sourceLine+(((c <<< 4) &&& 0x700) ||| c'))
          else some sourceLine := by
  cases ip <;> rfl

/-- The source line of the virtual machine for an offset of the bytecode. -/
def sourceLineOf (table : List ℕ) (bc : ℕ) : Option ℕ := sourceLineLoop table bc 1

/-- The source line in force at an offset: the last one set up to there, and the first line of
the source before any. -/
def lineInForce (lines : List (ℕ×ℕ)) (bc : ℕ) : ℕ :=
  lines.foldl (fun current line => if line.1 ≤ bc then line.2 else current) 1

/-- Neither the offset nor the line goes back. -/
def NotBefore (earlier later : ℕ×ℕ) : Prop := earlier.1 ≤ later.1∧earlier.2 ≤ later.2

section Entries

theorem shortEntry {b l : ℕ} (hb : b < 32) (hl : l < 4) :
    (b ||| (l <<< 5)) &&& 0x80=0∧(b ||| (l <<< 5)) &&& 0x1f=b∧(b ||| (l <<< 5)) >>> 5=l := by
  have hall : ∀ b < 32,∀ l < 4,(b ||| (l <<< 5)) &&& 0x80=0∧(b ||| (l <<< 5)) &&& 0x1f=b∧
      (b ||| (l <<< 5)) >>> 5=l := by decide
  exact hall b hb l hl

/-- The bytes and the lines of an entry of two bytes. -/
theorem longEntry {b l : ℕ} (hb : b < 16) (hl : l < 2048) :
    (0x80 ||| b ||| ((l >>> 4) &&& 0x70)) &&& 0x80≠0∧
      (0x80 ||| b ||| ((l >>> 4) &&& 0x70)) &&& 0xf=b∧
      (((0x80 ||| b ||| ((l >>> 4) &&& 0x70)) <<< 4) &&& 0x700) ||| (l &&& 0xff)=l := by
  have hmask : ∀ x < 128,x &&& 0x70=x/16*16 := by decide
  have hparts : ∀ b < 16,∀ h < 8,(0x80 ||| b ||| h*16) &&& 0x80≠0∧
      (0x80 ||| b ||| h*16) &&& 0xf=b∧((0x80 ||| b ||| h*16) <<< 4) &&& 0x700=h*256 := by decide
  have hhigh : (l >>> 4) &&& 0x70=l/256*16 := by
    rw [Nat.shiftRight_eq_div_pow,hmask _ (by omega),Nat.div_div_eq_div_mul]
  obtain ⟨hbit,hbytes,hlines⟩ := hparts b hb (l/256) (by omega)
  rw [hhigh]
  refine ⟨hbit,hbytes,?_⟩
  have hlow : l &&& 0xff=l%256 := and_two_pow_sub_one_eq_mod l 8
  have hjoin := two_pow_add_eq_or_of_lt (mod_lt l (by decide : 0 < 2^8)) (l/256)
  rw [hlines,hlow,mul_comm,←hjoin]
  omega

/-- A place is behind an entry of one byte or in front of its end. -/
theorem sourceLineLoop_short {b l : ℕ} (hb : b < 32) (hl : l < 4) (hpos : 0 < b∨0 < l)
    (ip : List ℕ) (bc line : ℕ) :
    sourceLineLoop ((b ||| (l <<< 5))::ip) bc line=
      if b ≤ bc then sourceLineLoop ip (bc-b) (line+l) else some line := by
  obtain ⟨hbit,hbytes,hlines⟩ := shortEntry hb hl
  have hne : b ||| (l <<< 5)≠0 := by
    intro h
    rw [h] at hbytes hlines
    obtain h | h := hpos
    · exact h.ne hbytes
    · exact h.ne hlines
  rw [sourceLineLoop_cons]
  simp only [hne,hbit,hbytes,hlines,if_true,if_false]

/-- A place is behind an entry of two bytes or in front of its end. -/
theorem sourceLineLoop_long {b l : ℕ} (hb : b < 16) (hl : l < 2048) (ip : List ℕ) (bc line : ℕ) :
    sourceLineLoop ((0x80 ||| b ||| ((l >>> 4) &&& 0x70))::(l &&& 0xff)::ip) bc line=
      if b ≤ bc then sourceLineLoop ip (bc-b) (line+l) else some line := by
  obtain ⟨hbit,hbytes,hlines⟩ := longEntry hb hl
  have hne : 0x80 ||| b ||| ((l >>> 4) &&& 0x70)≠0 := by
    intro h
    rw [h] at hbit
    exact hbit rfl
  rw [sourceLineLoop_cons]
  simp only [hne,hbit,hbytes,hlines,if_false]

/-- The skips of an entry and of those behind it together. -/
theorem skip_join {b bytesToSkip l linesToSkip : ℕ} (hb : b ≤ bytesToSkip)
    (hl : l ≤ linesToSkip) (hlast : l=0∨b=bytesToSkip) (found : ℕ→ℕ→Option ℕ) (bc line : ℕ) :
    (if b ≤ bc then
      if bytesToSkip-b ≤ bc-b then found (bc-b-(bytesToSkip-b)) (line+l+(linesToSkip-l))
      else some (line+l)
    else some line)=
      if bytesToSkip ≤ bc then found (bc-bytesToSkip) (line+linesToSkip) else some line := by
  have hline : line+l+(linesToSkip-l)=line+linesToSkip := by omega
  rw [hline]
  by_cases hall : bytesToSkip ≤ bc
  · have hplace : bc-b-(bytesToSkip-b)=bc-bytesToSkip := by omega
    rw [if_pos hall,if_pos (by omega),if_pos (by omega),hplace]
  · rw [if_neg hall]
    by_cases hsome : b ≤ bc
    · obtain rfl : l=0 := by omega
      rw [if_pos hsome,if_neg (by omega),add_zero]
    · rw [if_neg hsome]

/-- The entries for some bytes and lines skip them when the place is behind the bytes. -/
theorem sourceLineLoop_writeLoop {turns bytesToSkip linesToSkip : ℕ}
    (hturns : bytesToSkip+linesToSkip ≤ turns) (rest : List ℕ) (bc line : ℕ) :
    sourceLineLoop (writeLoop turns bytesToSkip linesToSkip++rest) bc line=
      if bytesToSkip ≤ bc then sourceLineLoop rest (bc-bytesToSkip) (line+linesToSkip)
      else some line := by
  induction turns generalizing bytesToSkip linesToSkip bc line with
  | zero =>
    obtain ⟨rfl,rfl⟩ : bytesToSkip=0∧linesToSkip=0 := by omega
    simp [writeLoop]
  | succ turns ih =>
    rw [writeLoop]
    by_cases hmore : 0 < bytesToSkip∨0 < linesToSkip
    · rw [if_pos hmore]
      by_cases hshort : linesToSkip ≤ 6∨0xf < bytesToSkip
      · rw [if_pos hshort]
        dsimp only
        by_cases hbytes : min bytesToSkip 0x1f < bytesToSkip
        · rw [if_pos hbytes,cons_append,
            sourceLineLoop_short (by omega) (by omega) (by omega),ih (by omega)]
          exact skip_join (by omega) (by omega) (.inl rfl) _ bc line
        · rw [if_neg hbytes,cons_append,
            sourceLineLoop_short (by omega) (by omega) (by omega),ih (by omega)]
          exact skip_join (by omega) (by omega) (.inr (by omega)) _ bc line
      · rw [if_neg hshort]
        dsimp only
        rw [cons_append,cons_append,sourceLineLoop_long (by omega) (by omega),ih (by omega)]
        exact skip_join (by omega) (by omega) (.inr (by omega)) _ bc line
    · obtain ⟨rfl,rfl⟩ : bytesToSkip=0∧linesToSkip=0 := by omega
      simp

end Entries

section Emission

variable {optimise : ℕ}

theorem setSourceLines_concat (lines : List (ℕ×ℕ)) (line : ℕ×ℕ) :
    setSourceLines optimise (lines++[line])=
      mpEmitBcSetSourceLine optimise (setSourceLines optimise lines) line.1 line.2 := by
  simp [setSourceLines]

theorem lineInForce_concat (lines : List (ℕ×ℕ)) (line : ℕ×ℕ) (bc : ℕ) :
    lineInForce (lines++[line]) bc=if line.1 ≤ bc then line.2 else lineInForce lines bc := by
  simp [lineInForce]

/-- What the emitter has written of some source lines. -/
structure Written (lines : List (ℕ×ℕ)) (emit : Emit) : Prop where
  /-- The last offset and line do not lie behind what may come. -/
  last : ∀ line,(∀ earlier∈(0,1)::lines,NotBefore earlier line) →
    NotBefore (emit.lastSourceLineOffset,emit.lastSourceLine) line
  inForce : ∀ bc,emit.lastSourceLineOffset ≤ bc → lineInForce lines bc=emit.lastSourceLine
  /-- The entries lead to the line in force, or up to the last offset. -/
  found : ∀ rest bc,sourceLineLoop (emit.codeInfo++rest) bc 1=
    if emit.lastSourceLineOffset ≤ bc then
      sourceLineLoop rest (bc-emit.lastSourceLineOffset) emit.lastSourceLine
    else some (lineInForce lines bc)

/-- Setting a source line writes it. -/
theorem Written.setSourceLine {lines : List (ℕ×ℕ)} {emit : Emit} (h : Written lines emit)
    (hoptimise : optimise < 3) {line : ℕ×ℕ}
    (hline : ∀ earlier∈(0,1)::lines,NotBefore earlier line) :
    Written (lines++[line]) (mpEmitBcSetSourceLine optimise emit line.1 line.2) := by
  obtain ⟨hoffset,hle⟩ := h.last line hline
  have hlast : ∀ later,(∀ earlier∈(0,1)::(lines++[line]),NotBefore earlier later) →
      NotBefore line later∧∀ earlier∈(0,1)::lines,NotBefore earlier later := by
    intro later hlater
    refine ⟨hlater line (by simp),fun earlier hearlier => hlater earlier ?_⟩
    rw [←cons_append]
    exact mem_append_left _ hearlier
  rw [mpEmitBcSetSourceLine,if_neg (by omega)]
  by_cases hnew : emit.lastSourceLine < line.2
  · rw [if_pos hnew]
    refine ⟨fun later hlater => (hlast later hlater).1,fun bc hbc => ?_,fun rest bc => ?_⟩
    · rw [lineInForce_concat,if_pos hbc]
    · dsimp only
      rw [append_assoc,h.found,emitWriteCodeInfoBytesLines,
        sourceLineLoop_writeLoop (le_refl _),lineInForce_concat]
      by_cases hsome : emit.lastSourceLineOffset ≤ bc
      · have hforce := h.inForce bc hsome
        rw [if_pos hsome,hforce]
        by_cases hall : line.1 ≤ bc
        · have hplace : bc-emit.lastSourceLineOffset-(line.1-emit.lastSourceLineOffset)=
              bc-line.1 := by omega
          rw [if_pos hall,if_pos (by omega),hplace,Nat.add_sub_cancel' hle]
        · rw [if_neg hall,if_neg (by omega),if_neg hall]
      · rw [if_neg hsome,if_neg (by omega),if_neg (by omega)]
  · have hsame : line.2=emit.lastSourceLine := by omega
    rw [if_neg hnew]
    refine ⟨fun later hlater => h.last later (hlast later hlater).2,fun bc hbc => ?_,
      fun rest bc => ?_⟩
    · rw [lineInForce_concat,hsame,h.inForce bc hbc,ite_self]
    · rw [h.found,lineInForce_concat]
      by_cases hsome : emit.lastSourceLineOffset ≤ bc
      · rw [if_pos hsome,if_pos hsome]
      · rw [if_neg hsome,if_neg hsome,if_neg (by omega)]

theorem written_setSourceLines (hoptimise : optimise < 3) {lines : List (ℕ×ℕ)}
    (h : ((0,1)::lines).Pairwise NotBefore) : Written lines (setSourceLines optimise lines) := by
  induction lines using List.reverseRecOn with
  | nil =>
    refine ⟨fun line hline => hline (0,1) mem_cons_self,fun bc hbc => rfl,
      fun rest bc => ?_⟩
    exact (if_pos (zero_le bc)).symm
  | append_singleton lines line ih =>
    rw [←cons_append,pairwise_append] at h
    rw [setSourceLines_concat]
    exact (ih h.1).setSourceLine hoptimise fun earlier hearlier =>
      h.2.2 earlier hearlier line mem_cons_self

/-- Without line numbers nothing is written. -/
theorem setSourceLines_optimised (hoptimise : 3 ≤ optimise) (lines : List (ℕ×ℕ)) :
    setSourceLines optimise lines=startPass := by
  induction lines using List.reverseRecOn with
  | nil => rfl
  | append_singleton lines line ih =>
    rw [setSourceLines_concat,ih,mpEmitBcSetSourceLine,if_pos hoptimise]

/-- The virtual machine finds the line in force at every offset, or the first line where the
line numbers are left out. -/
theorem sourceLineOf_lineTable (optimise : ℕ) {lines : List (ℕ×ℕ)}
    (h : ((0,1)::lines).Pairwise NotBefore) (bc : ℕ) :
    sourceLineOf (lineTable optimise lines) bc=
      some (if optimise < 3 then lineInForce lines bc else 1) := by
  rw [sourceLineOf,lineTable]
  by_cases hoptimise : optimise < 3
  · have hwritten := written_setSourceLines hoptimise h
    rw [hwritten.found,if_pos hoptimise]
    by_cases hlast : (setSourceLines optimise lines).lastSourceLineOffset ≤ bc
    · rw [if_pos hlast,hwritten.inForce bc hlast,sourceLineLoop_cons,if_pos rfl]
    · rw [if_neg hlast]
  · rw [setSourceLines_optimised (by omega),if_neg hoptimise]
    rfl

/-- A line behind another one, with both kinds of entries between them. -/
theorem sourceLineOf_lineTable_far : sourceLineOf (lineTable 0 [(2,3),(40,3000)]) 39=
      some (if 0 < 3 then lineInForce [(2,3),(40,3000)] 39 else 1) :=
  sourceLineOf_lineTable 0 (by
    simp [NotBefore]) 39

/-- With the highest optimisation the line is not found. -/
theorem optimised_line_lost : sourceLineOf (lineTable 3 [(0,5)]) 0=some 1∧lineInForce [(0,5)] 0=5∧
      ((0,1)::[(0,5)] : List (ℕ×ℕ)).Pairwise NotBefore := by
  refine ⟨by decide,by decide,?_⟩
  simp [NotBefore]

end Emission

end MicroPython.LineNumbers
