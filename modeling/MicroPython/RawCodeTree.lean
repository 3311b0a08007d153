import MicroPython.PersistentCode

/-!
# Saving and loading trees of raw codes

A tree of raw codes, as the compiler makes it, has strings where the bytes have
qstr numbers. Under a pool it becomes bytes. Saving the tree under one pool and
loading it under another gives the tree under the second pool, grown by the
strings of the tree, unless the walk over the bytecode loses its way or a new
number does not fit in the two bytes it has.
-/

namespace MicroPython.RawCodeTree

open List Interning OpcodeFormat PersistentCode VarUint WireReader NumberText

/-- One raw code without those inside it. -/
structure Head where
  nState : ℕ
  nExcStack : ℕ
  scopeFlags : Fin 256
  nPosArgs : Fin 256
  /-- The number of keyword-only arguments. -/
  nKwonlyArgs : Fin 256
  nDefPosArgs : Fin 256
  codeInfoSize : ℕ
  simpleName : Str
  sourceFile : Str
  /-- The line numbers and the room left over after them. -/
  lineInfo : List ℕ
  /-- The locals that become cells. -/
  cells : List (Fin 255)
  /-- The opcodes with their operands. -/
  code : List Instr
  argNames : List Str
  objs : List Obj
  size_eq : (emitWriteUint codeInfoSize).length+4+lineInfo.length=codeInfoSize
  argNames_length : argNames.length=nPosArgs.val+nKwonlyArgs.val
  /-- `n_obj` is a `uint16_t`. -/
  objs_length : objs.length<65536

/-- The qstrs whose numbers stand in the bytecode. -/
def Head.linked (h : Head) : List Str :=
  h.simpleName::h.sourceFile::h.code.flatMap Instr.operand

/-- The prelude as far as the code info. -/
def Head.front (h : Head) : List ℕ :=
  emitWriteUint h.nState++(emitWriteUint h.nExcStack++
    (h.scopeFlags.val::h.nPosArgs.val::h.nKwonlyArgs.val::h.nDefPosArgs.val::
      emitWriteUint h.codeInfoSize))

/-- The line numbers and the cells, up to the opcodes. -/
def Head.middle (h : Head) : List ℕ := h.lineInfo++(h.cells.map Fin.val++[255])

/-- The bytecode that the emitter writes. -/
def Head.bytecode (cache : Bool) (p : Pool Str) (h : Head) : List ℕ :=
  h.front++(twoBytes (p.number h.simpleName)++(twoBytes (p.number h.sourceFile)++
    (h.middle++codeBytes cache p h.code)))

/-- A raw code with the raw codes inside it. -/
inductive Code where
  | node (head : Head) (inner : List Code)

/-- The raw code at the root. -/
def Code.head : Code→Head
  | .node h _ => h

/-- The raw codes inside. -/
def Code.inner : Code→List Code
  | .node _ inner => inner

mutual
/-- All the raw codes of a tree. -/
def Code.parts : Code→List Code
  | .node h inner => .node h inner::Code.partsAll inner

/-- All the raw codes of some trees. -/
def Code.partsAll : List Code→List Code
  | [] => []
  | c::cs => c.parts++Code.partsAll cs
end

mutual
/-- The strings of a tree in the order of the file. -/
def Code.strings : Code→List Str
  | .node h inner => h.linked++(h.argNames++Code.stringsAll inner)

/-- The strings of some trees. -/
def Code.stringsAll : List Code→List Str
  | [] => []
  | c::cs => c.strings++Code.stringsAll cs
end

mutual
/-- A tree as raw codes, with its qstrs numbered by a pool. -/
def Code.layout (cache : Bool) (p : Pool Str) : Code→RawCode
  | .node h inner => ⟨h.bytecode cache p,h.argNames.map p.number,h.objs,
      Code.layoutAll cache p inner,h.scopeFlags.val%128⟩

/-- Some trees as raw codes. -/
def Code.layoutAll (cache : Bool) (p : Pool Str) : List Code→List RawCode
  | [] => []
  | c::cs => c.layout cache p::Code.layoutAll cache p cs
end

/-- The qstrs of a tree are in a pool, and those in the bytecode have numbers that
fit in two bytes. -/
structure Numbered (p : Pool Str) (c : Code) : Prop where
  known : ∀ s∈c.strings,s∈p.items
  /-- `emit_write_bytecode_byte_qstr` asserts `(qst >> 16) == 0`. -/
  fits : ∀ part∈c.parts,∀ s∈part.head.linked,p.number s<65536

/-- A tree that was compiled where `p` numbers the qstrs. -/
structure Compiled (p : Pool Str) where
  tree : Code
  numbered : Numbered p tree
  /-- `n_raw_code` is a `uint16_t`. -/
  counted : ∀ part∈tree.parts,part.inner.length<65536

/-- The tree saved on one side and loaded on the other is the same tree, with its
qstrs numbered by the pool of the loading side, which has grown. On both sides the
walk over each bytecode, whatever the numbers in it, goes from opcode to opcode
and finds the qstr operands. -/
structure Reloads (cfg : Config) (saving loading : Pool Str) (c : Code) : Prop where
  /-- The file holds the tree. -/
  loads : ∃ file loaded,mpRawCodeSave cfg saving (c.layout cfg.cache saving)=some file∧
    mpRawCodeLoad cfg file loading=.ok (c.layout cfg.cache loaded,loaded)∧
    loading≤loaded∧Numbered loaded c
  walks : ∀ part∈c.parts,∀ p,WalksThrough cfg.cache p part.head.code

/-- The walk is not misled by a byte that `mp_opcode_format` leaves out. -/
def SingleLeftOut (cache : Bool) (c : Code) : Prop :=
  ∀ part∈c.parts,∀ i∈part.head.code,∀ byte∈i.leftOut cache,isSingle byte=true

/-- The strings of the bytecode get numbers below `0x10000` when the strings of the
file are interned one after the other. -/
def NewNumbersFit (loading : Pool Str) (c : Code) : Prop :=
  ∀ part∈c.parts,∀ s∈part.head.linked,(loading.internAll c.strings).number s<65536

/-! ## The two loops -/

variable (cache : Bool)

variable (p : Pool Str) (buffer : List ℕ)

/-- The saver's loop writes strings at the stops of the walk. -/
theorem saveBytecodeQstrs_eq_walk (pos : ℕ) :
    saveBytecodeQstrs cache p (buffer.drop pos)=List.flatten <$>
      (opcodeWalk cache pos (buffer.drop pos)).1.mapM fun s =>
        if s.2=.qstr then saveOperand p (buffer.drop s.1).tail else some [] := by
  refine loop_eq_walk cache (fun f ip => if f=.qstr then saveOperand p ip.tail else some [])
    (saveBytecodeQstrs cache p) ?_ ?_ buffer pos
  · rw [saveBytecodeQstrs]
    rfl
  · intro byte ip
    rw [saveBytecodeQstrs]
    by_cases hq : (mpOpcodeFormat cache (byte::ip)).1=.qstr
    · simp only [if_pos hq]
      rfl
    · simp only [if_neg hq]
      rfl

/-- The loader's loop puts numbers at the stops of the walk over the same bytes. -/
theorem loadBytecodeQstrs_eq_walk (pos : ℕ) :
    loadBytecodeQstrs cache (buffer.drop pos)=List.flatten <$>
      (opcodeWalk cache pos (buffer.drop pos)).1.mapM fun s =>
        if s.2=.qstr then loadOperand ((buffer.drop s.1).headD 0) (buffer.drop s.1).tail
        else pure ((buffer.drop s.1).take (mpOpcodeFormat cache (buffer.drop s.1)).2) := by
  refine loop_eq_walk cache (fun f ip =>
    if f=.qstr then loadOperand (ip.headD 0) ip.tail
    else pure (ip.take (mpOpcodeFormat cache ip).2)) (loadBytecodeQstrs cache) ?_ ?_ buffer pos
  · rw [loadBytecodeQstrs]
  · intro byte ip
    rw [loadBytecodeQstrs]
    by_cases hq : (mpOpcodeFormat cache (byte::ip)).1=.qstr
    · simp only [if_pos hq]
      rfl
    · simp only [if_neg hq]

/-! ## Strings and objects -/

/-- The bytes of a saved string. -/
def writeStr (s : Str) : List ℕ := mpPrintUint s.length++s

theorem saveQstr_number {p : Pool Str} {s : Str} (h : s∈p.items) :
    saveQstr p (p.number s)=some (writeStr s) := by
  rw [saveQstr,Pool.item_number h]
  rfl

/-- The two bytes of a number give it back. -/
theorem join_twoBytes {n : ℕ} (h : n<65536) : n%256|||(((n>>>8)%256)<<<8)=n := by
  have hlow : n%256<2^8 := by omega
  rw [Nat.or_comm,←Nat.shiftLeft_add_eq_or_of_lt hlow,Nat.shiftLeft_eq,Nat.shiftRight_eq_div_pow]
  omega

/-- A number is read back. -/
theorem reads_readUint (n : ℕ) (t : Pool Str) : Reads readUint (mpPrintUint n) t n t := by
  intro rest
  have hdecode := mpDecodeUint_mpPrintUint n rest
  simp only [readUint,StateT.run,hdecode]

theorem reads_readBytes (bytes : List ℕ) (t : Pool Str) :
    Reads (readBytes bytes.length) bytes t bytes t :=
  reads_items _ bytes t

variable {t u : Pool Str} {i : Instr} {rest bytes : List ℕ}

/-- A string is interned. Its number is the one it has in any later pool. -/
theorem reads_loadQstr {s : Str} (h : t.intern s≤u) :
    Reads loadQstr (writeStr s) t (u.number s) (t.intern s) := by
  have hintern : Reads (qstrFromStrn s) [] t (u.number s) (t.intern s) := by
    intro rest
    rw [Pool.number_eq_of_le h (Pool.mem_intern t s)]
    rfl
  have hbytes := (reads_readBytes s t).bind hintern
  rw [append_nil] at hbytes
  exact (reads_readUint s.length t).bind hbytes

/-- Objects are read back. -/
theorem reads_loadObj (bits : ℕ) (o : Obj) (t : Pool Str) :
    Reads (loadObj bits) (saveObj o) t o t := by
  have hbyte : ∀ b,Reads readByte [b] t b t := fun b => reads_readItem _ b t
  cases o with
  | ellipsis => exact (hbyte 101).bind (reads_pure Obj.ellipsis t)
  | str s =>
    have hbody := (reads_readBytes s t).bind_pure Obj.str
    exact (hbyte 115).bind ((reads_readUint s.length t).bind hbody)
  | bytes s =>
    have hbody := (reads_readBytes s t).bind_pure Obj.bytes
    exact (hbyte 98).bind ((reads_readUint s.length t).bind hbody)
  | int n =>
    have hparse := mpParseNumInteger_mpObjIntPrint bits n
    refine (hbyte 105).bind ((reads_readUint (mpObjIntPrint n).length t).bind
      ((reads_readBytes (mpObjIntPrint n) t).bind_nil ?_))
    simp only [hparse]
    exact reads_pure _ t

/-! ## Operands of the bytecode -/

/-- An instruction has one qstr, which its counted bytes end with, or none, and then
they do not depend on the pool. -/
theorem operand_cases (i : Instr) : (i.operand=[]∧∀ p u,i.counted cache p=i.counted cache u)∨
      ∃ op q,i.operand=[q]∧∀ p,i.counted cache p=op::twoBytes (p.number q) := by
  cases i with
  | qstr op q => exact Or.inr ⟨op.val,q,rfl,fun p => rfl⟩
  | lookup op q slot => exact Or.inr ⟨op.val,q,rfl,fun p => rfl⟩
  | _ => exact Or.inl ⟨rfl,fun p u => rfl⟩

/-- Saving the qstr of one instruction. -/
theorem saveBytecodeQstrs_counted {cache : Bool} {p : Pool Str}
    (hknown : ∀ s∈i.operand,s∈p.items∧p.number s<65536)
    (hrest : saveBytecodeQstrs cache p rest=some bytes) :
    saveBytecodeQstrs cache p (i.counted cache p++rest)=
      some (i.operand.flatMap writeStr++bytes) := by
  obtain ⟨f,hformat,hoperand⟩ := mpOpcodeFormat_counted cache p i rest
  rcases operand_cases cache i with ⟨hnone,_⟩ | ⟨op,q,hone,hcounted⟩
  · have hf : f≠Format.qstr := fun h => hoperand.mp h hnone
    have hdrop : (i.counted cache p++rest).drop (i.counted cache p).length=rest :=
      drop_left
    have hpos := one_le_size cache (i.counted cache p++rest)
    rw [hformat] at hpos
    generalize i.counted cache p=counted at *
    cases counted with
    | nil => exact absurd hpos (by simp)
    | cons byte counted =>
      rw [cons_append] at hformat hdrop ⊢
      rw [saveBytecodeQstrs,hformat,hdrop,hrest,hnone]
      simp [hf]
  · have hq := hknown q (hone▸mem_singleton.mpr rfl)
    have hf : f=Format.qstr := hoperand.mpr (by simp [hone])
    have hsave := saveQstr_number hq.1
    have hjoin := join_twoBytes hq.2
    rw [hcounted,twoBytes,hf] at hformat
    rw [hcounted,twoBytes,hone]
    simp only [cons_append,nil_append,length_cons,length_nil] at hformat ⊢
    rw [saveBytecodeQstrs,hformat]
    simp only [if_true,saveOperand,hjoin,hsave,drop_succ_cons,drop_zero,hrest]
    simp

theorem saveBytecodeQstrs_leftOut {cache : Bool} {p : Pool Str}
    (hsingle : ∀ byte∈i.leftOut cache,isSingle byte=true) (rest : List ℕ) :
    saveBytecodeQstrs cache p (i.leftOut cache++rest)=saveBytecodeQstrs cache p rest := by
  rcases leftOut_cases cache i with hnone | ⟨byte,hone⟩
  · rw [hnone]
    rfl
  · have hformat := mpOpcodeFormat_single cache (hsingle byte (hone▸mem_singleton.mpr rfl)) rest
    rw [hone,cons_append,nil_append,saveBytecodeQstrs,hformat]
    simp

/-- Saving the qstrs of the opcodes. -/
theorem saveBytecodeQstrs_codeBytes {cache : Bool} {p : Pool Str} (code : List Instr)
    (hsingle : ∀ i∈code,∀ byte∈i.leftOut cache,isSingle byte=true)
    (hknown : ∀ s∈code.flatMap Instr.operand,s∈p.items∧p.number s<65536) :
    saveBytecodeQstrs cache p (codeBytes cache p code)=
      some ((code.flatMap Instr.operand).flatMap writeStr) := by
  induction code with
  | nil =>
    rw [codeBytes,flatMap_nil,saveBytecodeQstrs]
    rfl
  | cons i code ih =>
    simp only [flatMap_cons,mem_append] at hknown
    have hrest := ih (fun j hj => hsingle j (mem_cons_of_mem _ hj))
      (fun s hs => hknown s (Or.inr hs))
    have hbytes : codeBytes cache p (i::code)=
        i.counted cache p++(i.leftOut cache++codeBytes cache p code) := by
      rw [←append_assoc,←bytes_eq]
      rfl
    rw [hbytes,flatMap_cons,flatMap_append]
    refine saveBytecodeQstrs_counted (fun s hs => hknown s (Or.inl hs)) ?_
    rw [saveBytecodeQstrs_leftOut (hsingle i mem_cons_self),hrest]

/-- Loading the qstr of one instruction. -/
theorem reads_loadBytecodeQstrs_counted {cache : Bool}
    {code : List ℕ} {v : Pool Str} (hu : t.internAll i.operand≤u)
    (hrest : Reads (loadBytecodeQstrs cache rest) bytes (t.internAll i.operand) code v) :
    Reads (loadBytecodeQstrs cache (i.counted cache p++rest))
      (i.operand.flatMap writeStr++bytes) t (i.counted cache u++code) v := by
  obtain ⟨f,hformat,hoperand⟩ := mpOpcodeFormat_counted cache p i rest
  rcases operand_cases cache i with ⟨hnone,hsame⟩ | ⟨op,q,hone,hcounted⟩
  · have hf : f≠Format.qstr := fun h => hoperand.mp h hnone
    have hdrop : (i.counted cache p++rest).drop (i.counted cache p).length=rest :=
      drop_left
    have htake : (i.counted cache p++rest).take (i.counted cache p).length=
        i.counted cache p := take_left
    have hpos := one_le_size cache (i.counted cache p++rest)
    rw [hformat] at hpos
    rw [hsame u p]
    rw [hnone] at hrest ⊢
    generalize i.counted cache p=counted at *
    cases counted with
    | nil => exact absurd hpos (by simp)
    | cons byte counted =>
      rw [cons_append] at hformat hdrop htake ⊢
      rw [loadBytecodeQstrs,hformat,hdrop,htake,if_neg hf]
      exact (hrest.bind_pure (byte::counted++·)).pure_bind
  · have hf : f=Format.qstr := hoperand.mpr (by simp [hone])
    rw [hone] at hu hrest ⊢
    rw [hcounted,twoBytes,hf] at hformat
    rw [hcounted p,hcounted u,twoBytes]
    simp only [cons_append,nil_append,length_cons,length_nil,
      flatMap_cons,flatMap_nil,append_nil] at hformat ⊢
    rw [loadBytecodeQstrs,hformat]
    have hread := (reads_loadQstr hu).bind_pure (fun qst => op::twoBytes qst)
    exact hread.bind (hrest.bind_pure ((op::twoBytes (u.number q))++·))

theorem reads_loadBytecodeQstrs_leftOut {cache : Bool}
    (hsingle : ∀ byte∈i.leftOut cache,isSingle byte=true) {code : List ℕ}
    {v : Pool Str} (hrest : Reads (loadBytecodeQstrs cache rest) bytes t code v) :
    Reads (loadBytecodeQstrs cache (i.leftOut cache++rest)) bytes t (i.leftOut cache++code) v := by
  rcases leftOut_cases cache i with hnone | ⟨byte,hone⟩
  · rw [hnone]
    exact hrest
  · have hformat := mpOpcodeFormat_single cache (hsingle byte (hone▸mem_singleton.mpr rfl)) rest
    rw [hone,cons_append,nil_append,loadBytecodeQstrs,hformat]
    exact (hrest.bind_pure ([byte]++·)).pure_bind

/-- Loading the qstrs of the opcodes. -/
theorem reads_loadBytecodeQstrs_codeBytes {cache : Bool} (code : List Instr) :
    ∀ t : Pool Str,(∀ i∈code,∀ byte∈i.leftOut cache,isSingle byte=true) →
      t.internAll (code.flatMap Instr.operand)≤u →
      Reads (loadBytecodeQstrs cache (codeBytes cache p code))
        ((code.flatMap Instr.operand).flatMap writeStr) t (codeBytes cache u code)
        (t.internAll (code.flatMap Instr.operand)) := by
  induction code with
  | nil =>
    intro t _ _
    rw [codeBytes,flatMap_nil,loadBytecodeQstrs]
    exact reads_pure [] t
  | cons i code ih =>
    intro t hsingle hu
    rw [flatMap_cons,Pool.internAll_append] at hu ⊢
    have hrest := ih (t.internAll i.operand) (fun j hj => hsingle j (mem_cons_of_mem _ hj)) hu
    have hbytes : ∀ q,codeBytes cache q (i::code)=
        i.counted cache q++(i.leftOut cache++codeBytes cache q code) := by
      intro q
      rw [←append_assoc,←bytes_eq]
      rfl
    rw [hbytes,hbytes,flatMap_append]
    have hgrow := le_trans (Pool.le_internAll (t.internAll i.operand) _) hu
    exact reads_loadBytecodeQstrs_counted p hgrow
      (reads_loadBytecodeQstrs_leftOut (hsingle i mem_cons_self) hrest)

/-! ## Raw codes -/

theorem skipCells_cells (cells : List (Fin 255)) (rest : List ℕ) :
    skipCells (cells.map Fin.val++255::rest)=some rest := by
  induction cells with
  | nil => rfl
  | cons c cells ih =>
    have hc : c.val≠255 := by omega
    rw [map_cons,cons_append,skipCells,if_neg hc,ih]

/-- The prelude that the emitter writes is read as it is meant. -/
theorem extractPrelude_bytecode (h : Head) : extractPrelude (h.bytecode cache p)=
      some (⟨h.scopeFlags.val,h.nPosArgs.val,h.nKwonlyArgs.val⟩,
        twoBytes (p.number h.simpleName)++(twoBytes (p.number h.sourceFile)++
          (h.middle++codeBytes cache p h.code)),codeBytes cache p h.code) := by
  have hsize := h.size_eq
  have hdrop : (emitWriteUint h.codeInfoSize++(twoBytes (p.number h.simpleName)++
      (twoBytes (p.number h.sourceFile)++(h.middle++codeBytes cache p h.code)))).drop
        h.codeInfoSize=h.cells.map Fin.val++255::codeBytes cache p h.code := by
    have hsplit : emitWriteUint h.codeInfoSize++(twoBytes (p.number h.simpleName)++
        (twoBytes (p.number h.sourceFile)++(h.middle++codeBytes cache p h.code)))=
        (emitWriteUint h.codeInfoSize++(twoBytes (p.number h.simpleName)++
          (twoBytes (p.number h.sourceFile)++h.lineInfo)))++
            (h.cells.map Fin.val++255::codeBytes cache p h.code) := by
      simp [Head.middle]
    rw [hsplit]
    refine drop_left' ?_
    simp only [length_append,twoBytes,length_cons,length_nil]
    omega
  simp only [emitWriteUint_eq_mpPrintUint] at hdrop
  rw [extractPrelude,Head.bytecode,Head.front]
  simp only [emitWriteUint_eq_mpPrintUint,append_assoc,mpDecodeUint_mpPrintUint,
    Option.bind_eq_bind,Option.bind_some,cons_append]
  rw [hdrop,skipCells_cells]
  rfl

theorem saveQstrs_numbers {p : Pool Str} (names : List Str) (h : ∀ s∈names,s∈p.items) :
    saveQstrs p (names.map p.number)=some (names.flatMap writeStr) := by
  induction names with
  | nil => rfl
  | cons s names ih =>
    have hfirst := saveQstr_number (h s mem_cons_self)
    have hrest := ih (fun s hs => h s (mem_cons_of_mem _ hs))
    rw [map_cons,saveQstrs,hfirst,hrest]
    rfl

mutual
/-- The bytes of a tree in the file. -/
def Code.written (cache : Bool) (p : Pool Str) : Code→List ℕ
  | .node h inner => mpPrintUint (h.bytecode cache p).length++(h.bytecode cache p++
      (writeStr h.simpleName++(writeStr h.sourceFile++
        ((h.code.flatMap Instr.operand).flatMap writeStr++
          (mpPrintUint (h.objs.length%65536)++(mpPrintUint (inner.length%65536)++
            (h.argNames.flatMap writeStr++(h.objs.flatMap saveObj++
              Code.writtenAll cache p inner))))))))

/-- The bytes of some trees in the file. -/
def Code.writtenAll (cache : Bool) (p : Pool Str) : List Code→List ℕ
  | [] => []
  | c::cs => c.written cache p++Code.writtenAll cache p cs
end

/-- Raw codes inside keep their number. -/
theorem layoutAll_eq (cs : List Code) :
    Code.layoutAll cache p cs=cs.map (Code.layout cache p) := by
  induction cs with
  | nil => rfl
  | cons c cs ih => rw [Code.layoutAll,map_cons,ih]

theorem writtenAll_eq (cs : List Code) :
    Code.writtenAll cache p cs=cs.flatMap (Code.written cache p) := by
  induction cs with
  | nil => rfl
  | cons c cs ih => rw [Code.writtenAll,flatMap_cons,ih]

theorem internAll_stringsAll (t : Pool Str) (cs : List Code) :
    t.internAll (Code.stringsAll cs)=cs.foldl (fun t c => t.internAll c.strings) t := by
  induction cs generalizing t with
  | nil => rfl
  | cons c cs ih => rw [Code.stringsAll,Pool.internAll_append,ih,foldl_cons]

variable {h : Head} {inner : List Code}

/-- What is asked of all raw codes of a tree is asked of its root and of the trees
inside. -/
theorem forall_parts_node {P : Code→Prop} :
    (∀ part∈(Code.node h inner).parts,P part)↔
      P (.node h inner)∧∀ c∈inner,∀ part∈c.parts,P part := by
  have hall : ∀ cs : List Code,(∀ part∈Code.partsAll cs,P part)↔
      ∀ c∈cs,∀ part∈c.parts,P part := by
    intro cs
    induction cs with
    | nil => simp [Code.partsAll]
    | cons c cs ih => simp only [Code.partsAll,forall_mem_append,forall_mem_cons,ih]
  rw [Code.parts,forall_mem_cons,hall]

/-- The strings of a tree are those of its root and of the trees inside. -/
theorem forall_strings_node {P : Str→Prop} :
    (∀ s∈(Code.node h inner).strings,P s)↔
      (∀ s∈h.linked,P s)∧(∀ s∈h.argNames,P s)∧∀ c∈inner,∀ s∈c.strings,P s := by
  have hall : ∀ cs : List Code,(∀ s∈Code.stringsAll cs,P s)↔∀ c∈cs,∀ s∈c.strings,P s := by
    intro cs
    induction cs with
    | nil => simp [Code.stringsAll]
    | cons c cs ih => simp only [Code.stringsAll,forall_mem_append,forall_mem_cons,ih]
  rw [Code.strings,forall_mem_append,forall_mem_append,hall]

mutual
/-- Saving a tree whose walks are not misled. -/
theorem saveRawCode_layout {cache : Bool} {p : Pool Str} : ∀ c : Code,
    SingleLeftOut cache c → Numbered p c →
    saveRawCode cache p (c.layout cache p)=some (c.written cache p)
  | .node h inner,hsingle,hnumbered => by
    have hparts := forall_parts_node.mp hsingle
    have hknown := forall_strings_node.mp hnumbered.known
    have hfits := forall_parts_node.mp hnumbered.fits
    have hinner := saveRawCodes_layout inner hparts.2 hknown.2.2 hfits.2
    have hlinked : ∀ s∈h.linked,s∈p.items∧p.number s<65536 :=
      fun s hs => ⟨hknown.1 s hs,hfits.1 s hs⟩
    have hname := hlinked h.simpleName mem_cons_self
    have hfile := hlinked h.sourceFile (mem_cons_of_mem _ mem_cons_self)
    have hcode := saveBytecodeQstrs_codeBytes h.code hparts.1
      (fun s hs => hlinked s (mem_cons_of_mem _ (mem_cons_of_mem _ hs)))
    have hargs := saveQstrs_numbers h.argNames hknown.2.1
    have hprelude := extractPrelude_bytecode cache p h
    have hlength : (h.argNames.map p.number).length=h.nPosArgs.val+h.nKwonlyArgs.val := by
      rw [length_map,h.argNames_length]
    have hcount : (Code.layoutAll cache p inner).length=inner.length := by
      rw [layoutAll_eq,length_map]
    rw [Code.layout,saveRawCode,hprelude]
    simp only [Option.bind_eq_bind,Option.bind_some,twoBytes,cons_append,nil_append,
      join_twoBytes hname.2,join_twoBytes hfile.2,saveQstr_number hname.1,
      saveQstr_number hfile.1,hcode,hargs,hinner,if_pos hlength,hcount,Code.written]

/-- Saving the trees inside. -/
theorem saveRawCodes_layout {cache : Bool} {p : Pool Str} : ∀ cs : List Code,
    (∀ c∈cs,SingleLeftOut cache c) → (∀ c∈cs,∀ s∈c.strings,s∈p.items) →
    (∀ c∈cs,∀ part∈c.parts,∀ s∈part.head.linked,p.number s<65536) →
    saveRawCodes cache p (Code.layoutAll cache p cs)=some (Code.writtenAll cache p cs)
  | [],_,_,_ => rfl
  | c::cs,hsingle,hknown,hfits => by
    have hfirst := saveRawCode_layout c (hsingle c mem_cons_self)
      ⟨hknown c mem_cons_self,hfits c mem_cons_self⟩
    have hrest := saveRawCodes_layout cs (fun d hd => hsingle d (mem_cons_of_mem _ hd))
      (fun d hd => hknown d (mem_cons_of_mem _ hd))
      (fun d hd => hfits d (mem_cons_of_mem _ hd))
    rw [Code.layoutAll,saveRawCodes,hfirst,hrest]
    rfl
end

/-- A number takes room in the file. -/
theorem mpPrintUint_ne_nil (n : ℕ) : mpPrintUint n≠[] := by
  intro h
  have hdecode := mpDecodeUint_mpPrintUint n []
  have hnone : mpDecodeUint ([]++[])=none := rfl
  rw [h,hnone] at hdecode
  cases hdecode

/-- The parts of the bytecode that the loader copies around the new numbers. -/
theorem copied_parts (h : Head) :
    (h.bytecode cache p).take ((h.bytecode cache p).length-
        ((h.middle++codeBytes cache p h.code).length+4))=h.front∧
      (h.middle++codeBytes cache p h.code).take ((h.middle++codeBytes cache p h.code).length-
        (codeBytes cache p h.code).length)=h.middle := by
  constructor
  · have hlength : (h.bytecode cache p).length-((h.middle++codeBytes cache p h.code).length+4)=
        h.front.length := by
      simp only [Head.bytecode,length_append,twoBytes,length_cons,length_nil]
      omega
    rw [hlength,Head.bytecode,take_left]
  · have hlength : (h.middle++codeBytes cache p h.code).length-(codeBytes cache p h.code).length=
        h.middle.length := by
      rw [length_append]
      omega
    rw [hlength,take_left]

/-- A raw code inside takes less room than the one around it. -/
theorem written_lt {cache : Bool} {p : Pool Str} {c : Code} (hc : c∈inner) :
    (c.written cache p).length<((Code.node h inner).written cache p).length := by
  have hfirst := length_pos_of_ne_nil (mpPrintUint_ne_nil (h.bytecode cache p).length)
  have hsub : (c.written cache p).length≤(Code.writtenAll cache p inner).length := by
    rw [writtenAll_eq]
    obtain ⟨before,after,hsplit⟩ := append_of_mem hc
    rw [hsplit]
    simp only [flatMap_append,flatMap_cons,length_append]
    omega
  simp only [Code.written,length_append]
  omega

variable {cfg : Config}

/-- One level of loading, once the raw codes inside are read. -/
theorem reads_loadRawCode_node {p : Pool Str}
    {depth : ℕ} (hsingle : ∀ i∈h.code,∀ byte∈i.leftOut cfg.cache,isSingle byte=true)
    (hcount : inner.length<65536) (hinner : ∀ c∈inner,∀ t : Pool Str,t.internAll c.strings≤u →
      Reads (loadRawCode cfg depth) (c.written cfg.cache p) t (c.layout cfg.cache u)
        (t.internAll c.strings))
    (t : Pool Str) (hu : t.internAll (Code.node h inner).strings≤u) :
    Reads (loadRawCode cfg (depth+1)) ((Code.node h inner).written cfg.cache p) t
      ((Code.node h inner).layout cfg.cache u) (t.internAll (Code.node h inner).strings) := by
  rw [Code.strings,Pool.internAll_append,Pool.internAll_append,Head.linked,Pool.internAll_cons,
    Pool.internAll_cons,internAll_stringsAll] at hu ⊢
  -- the pools that the strings of the file lead through, all below `u`
  generalize hname : t.intern h.simpleName=t1 at *
  generalize hfile : t1.intern h.sourceFile=t2 at *
  generalize hops : t2.internAll (h.code.flatMap Instr.operand)=t3 at *
  generalize hargs : t3.internAll h.argNames=t4 at *
  have hfold : ∀ cs : List Code,∀ t : Pool Str,t≤cs.foldl (fun t c => t.internAll c.strings) t := by
    intro cs t
    rw [←internAll_stringsAll]
    exact Pool.le_internAll t _
  have h4 : t4≤u := le_trans (hfold inner t4) hu
  have h3 : t3≤u := le_trans (hargs▸Pool.le_internAll t3 h.argNames) h4
  have h2 : t2≤u := le_trans (hops▸Pool.le_internAll t2 _) h3
  have h1 : t1≤u := le_trans (hfile▸Pool.le_intern t1 h.sourceFile) h2
  have hprelude := extractPrelude_bytecode cfg.cache p h
  have hcopied := copied_parts cfg.cache p h
  have hlast := (reads_readMany (fun t c => Pool.le_internAll t (Code.strings c)) inner t4 hu
    hinner).bind_pure fun rawCodes => (⟨h.bytecode cfg.cache u,h.argNames.map u.number,h.objs,
      rawCodes,h.scopeFlags.val%128⟩ : RawCode)
  rw [loadRawCode,Code.written,Code.layout,layoutAll_eq,writtenAll_eq]
  refine (reads_readUint _ t).bind ((reads_readBytes _ t).bind ?_)
  simp only [hprelude,twoBytes,cons_append,nil_append]
  refine (reads_loadQstr (hname▸h1)).bind ?_
  rw [hname]
  refine (reads_loadQstr (hfile▸h2)).bind ?_
  rw [hfile]
  refine (reads_loadBytecodeQstrs_codeBytes p h.code t2 hsingle (hops▸h3)).bind ?_
  rw [hops,Nat.mod_eq_of_lt h.objs_length,Nat.mod_eq_of_lt hcount,hcopied.1,hcopied.2]
  refine (reads_readUint _ t3).bind ((reads_readUint _ t3).bind ?_)
  rw [←h.argNames_length]
  have hnames : Reads (readMany loadQstr h.argNames.length) (h.argNames.flatMap writeStr) t3
      (h.argNames.map u.number) t4 := by
    rw [←hargs]
    exact reads_readMany Pool.le_intern h.argNames t3 (le_of_eq_of_le hargs h4)
      (fun s _ t ht => reads_loadQstr ht)
  have hsame : h.objs.foldl (fun t _ => t) t4=t4 := foldl_fixed h.objs
  have hobjs : Reads (readMany (loadObj cfg.smallIntBits) h.objs.length)
      (h.objs.flatMap saveObj) t4 h.objs t4 := by
    have hread := reads_readMany (fun t (_ : Obj) => le_refl t) h.objs t4
      (le_of_eq_of_le hsame h4) (fun o _ t _ => reads_loadObj cfg.smallIntBits o t)
    rw [hsame,map_id'] at hread
    exact hread
  exact hnames.bind (hobjs.bind hlast)

mutual
/-- Loading a tree whose walks are not misled, with its numbers from any pool that the
loading side's pool grows to. -/
theorem reads_loadRawCode {cfg : Config} {p u : Pool Str} : ∀ (c : Code) (depth : ℕ),
    SingleLeftOut cfg.cache c → (∀ part∈c.parts,part.inner.length<65536) →
    (c.written cfg.cache p).length≤depth → ∀ t : Pool Str,t.internAll c.strings≤u →
    Reads (loadRawCode cfg depth) (c.written cfg.cache p) t (c.layout cfg.cache u)
      (t.internAll c.strings)
  | .node h inner,0,_,_,hdepth => by
    have hpos := length_pos_of_ne_nil (mpPrintUint_ne_nil (h.bytecode cfg.cache p).length)
    rw [Code.written,length_append] at hdepth
    omega
  | .node h inner,depth+1,hsingle,hcount,hdepth => by
    have hparts := forall_parts_node.mp hsingle
    have hcounts := forall_parts_node.mp hcount
    have hdepths : ∀ c∈inner,(c.written cfg.cache p).length≤depth := fun c hc =>
      Nat.lt_succ_iff.mp (lt_of_lt_of_le (written_lt hc) hdepth)
    exact reads_loadRawCode_node hparts.1 hcounts.1
      (reads_loadRawCodes inner depth hparts.2 hcounts.2 hdepths)

/-- Loading the trees inside. -/
theorem reads_loadRawCodes {cfg : Config} {p u : Pool Str} : ∀ (cs : List Code) (depth : ℕ),
    (∀ c∈cs,SingleLeftOut cfg.cache c) →
    (∀ c∈cs,∀ part∈c.parts,part.inner.length<65536) →
    (∀ c∈cs,(c.written cfg.cache p).length≤depth) →
    ∀ c∈cs,∀ t : Pool Str,t.internAll c.strings≤u →
    Reads (loadRawCode cfg depth) (c.written cfg.cache p) t (c.layout cfg.cache u)
      (t.internAll c.strings)
  | [],_,_,_,_ => fun c hc => absurd hc not_mem_nil
  | d::cs,depth,hsingle,hcount,hdepth => by
    have hfirst := @reads_loadRawCode cfg p u d depth (hsingle d mem_cons_self)
      (hcount d mem_cons_self) (hdepth d mem_cons_self)
    have hrest := @reads_loadRawCodes cfg p u cs depth (fun c hc => hsingle c (mem_cons_of_mem _ hc))
      (fun c hc => hcount c (mem_cons_of_mem _ hc))
      (fun c hc => hdepth c (mem_cons_of_mem _ hc))
    intro c hc
    rcases mem_cons.mp hc with heq | hc
    · rw [heq]
      exact hfirst
    · exact hrest c hc
end

/-! ## The file -/

/-- The loader reads the header and the tree. -/
theorem reads_loadFile {saving : Pool Str} (loading : Pool Str)
    (c : Compiled saving) (hsingle : SingleLeftOut cfg.cache c.tree) :
    Reads (loadFile cfg ([77,mpyVersion,mpyFeatureFlags cfg,cfg.smallIntBits]++
        c.tree.written cfg.cache saving).length)
      ([77,mpyVersion,mpyFeatureFlags cfg,cfg.smallIntBits]++
        c.tree.written cfg.cache saving) loading
      (c.tree.layout cfg.cache (loading.internAll c.tree.strings))
      (loading.internAll c.tree.strings) := by
  have hheader := reads_readBytes [77,mpyVersion,mpyFeatureFlags cfg,cfg.smallIntBits] loading
  refine hheader.bind ?_
  simp only [ne_eq,not_true_eq_false,lt_irrefl,or_self,if_false]
  refine reads_loadRawCode c.tree _ hsingle c.counted ?_ loading (le_refl _)
  rw [length_append]
  omega

/-- Where the walks are not misled, the file of a compiled tree is loaded as the tree
under the loading side's pool with the strings of the tree interned. -/
theorem load_save {saving : Pool Str} (loading : Pool Str) (c : Compiled saving)
    (hsingle : SingleLeftOut cfg.cache c.tree) :
    ∃ file,mpRawCodeSave cfg saving (c.tree.layout cfg.cache saving)=some file∧
      mpRawCodeLoad cfg file loading=
        .ok (c.tree.layout cfg.cache (loading.internAll c.tree.strings),
          loading.internAll c.tree.strings) := by
  have hsave := saveRawCode_layout c.tree hsingle c.numbered
  refine ⟨[77,mpyVersion,mpyFeatureFlags cfg,cfg.smallIntBits]++
    c.tree.written cfg.cache saving,?_,?_⟩
  · rw [mpRawCodeSave,hsave]
    rfl
  · have hrun := reads_loadFile loading c hsingle []
    rw [append_nil] at hrun
    rw [mpRawCodeLoad,hrun]

/-- Saving and loading give the tree back, and the walks go from opcode to opcode,
exactly when the walks are not misled by a left-out byte and the new numbers fit. -/
theorem reloads_iff (cfg : Config) (saving loading : Pool Str) (c : Compiled saving) :
    Reloads cfg saving loading c.tree↔
      SingleLeftOut cfg.cache c.tree∧NewNumbersFit loading c.tree := by
  constructor
  · intro h
    have hsingle : SingleLeftOut cfg.cache c.tree := fun part hpart =>
      (walksThrough_iff cfg.cache saving part.head.code).mp (h.walks part hpart saving)
    refine ⟨hsingle,?_⟩
    obtain ⟨file,hsave,hload⟩ := load_save loading c hsingle
    obtain ⟨file',loaded,hsave',hload',_,hnumbered⟩ := h.loads
    rw [hsave,Option.some.injEq] at hsave'
    rw [←hsave',hload,Except.ok.injEq,Prod.mk.injEq] at hload'
    rw [NewNumbersFit,hload'.2]
    exact hnumbered.fits
  · intro h
    obtain ⟨file,hsave,hload⟩ := load_save loading c h.1
    refine ⟨⟨file,loading.internAll c.tree.strings,hsave,hload,
      Pool.le_internAll loading c.tree.strings,?_,h.2⟩,?_⟩
    · exact fun s hs => Pool.mem_internAll loading hs
    · exact fun part hpart p =>
        (walksThrough_iff cfg.cache p part.head.code).mpr (h.1 part hpart)

/-- The code of a function that leaves a loop by a `break` from within twenty-two
`try` statements: `UNWIND_JUMP` is followed by `0x16`, which is also the opcode
`LOAD_CONST_STRING`. -/
def deepBreak : Head where
  nState := 70
  nExcStack := 22
  scopeFlags := 0
  nPosArgs := 0
  nKwonlyArgs := 0
  nDefPosArgs := 0
  codeInfoSize := 7
  simpleName := [102]
  sourceFile := [103]
  lineInfo := [0,0]
  cells := []
  code := List.replicate 22 (.offset ⟨0x3f,by decide⟩ 8)++
    [.unwindJump 0x8000 22,.plain ⟨0x11,by decide⟩,.plain ⟨0x5b,by decide⟩]
  argNames := []
  objs := []
  size_eq := by decide
  argNames_length := by decide
  objs_length := by decide

/-- The pool of a fresh start with the two names of `deepBreak`. -/
def twoNames : Pool Str := ⟨[[102],[103]],by decide⟩

/-- `deepBreak` is compiled code. -/
def deepBreakCompiled : Compiled twoNames where
  tree := .node deepBreak []
  numbered := ⟨by decide,by decide⟩
  counted := by decide

/-- The code that leaves twenty-two `try` statements at once is not reloaded. -/
theorem deepBreak_not_reloaded :
    ¬Reloads ⟨false,true,31⟩ twoNames twoNames deepBreakCompiled.tree := by
  intro h
  have hwalk := h.walks (.node deepBreak []) List.mem_cons_self twoNames
  have hsingle := (walksThrough_iff false twoNames deepBreak.code).mp hwalk
    (.unwindJump 0x8000 22) (List.mem_append_right _ List.mem_cons_self) 22
    (List.mem_singleton.mpr rfl)
  exact absurd hsingle (by decide)

end MicroPython.RawCodeTree
