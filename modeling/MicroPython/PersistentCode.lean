import MicroPython.NumberText
import MicroPython.OpcodeFormat
import MicroPython.WireReader

/-!
# Persistent code

Saving writes a tree of raw codes as a stream of bytes: the bytecode as it is,
then the strings of its qstrs in the order in which a walk over the bytecode
meets them, then the constants and the raw codes inside. Loading reads the
stream, interns the strings and puts their new numbers into the bytecode.
Qstr numbers start at one.
-/

namespace MicroPython.PersistentCode

open Interning NumberText OpcodeFormat VarUint WireReader

/-- The options of a build that the code in a file depends on. -/
structure Config where
  /-- `MICROPY_OPT_CACHE_MAP_LOOKUP_IN_BYTECODE` -/
  cache : Bool
  /-- `MICROPY_PY_BUILTINS_STR_UNICODE` -/
  unicode : Bool
  /-- `mp_small_int_bits()` -/
  smallIntBits : ℕ

/-- `MPY_VERSION` -/
def mpyVersion : ℕ := 3

/-- `MPY_FEATURE_FLAGS` -/
def mpyFeatureFlags (cfg : Config) : ℕ := cfg.cache.toNat|||(cfg.unicode.toNat<<<1)

/-- The objects of a constant table. -/
inductive Obj where
  | str (s : Str)
  | bytes (s : Str)
  | int (n : ℤ)
  /-- `mp_const_ellipsis_obj` -/
  | ellipsis
  deriving DecidableEq

/-- `mp_raw_code_t` of bytecode. The constant table is kept in its three parts,
whose lengths `n_obj` and `n_raw_code` count. -/
structure RawCode where
  bytecode : List ℕ
  argNames : List ℕ
  objs : List Obj
  rawCodes : List RawCode
  /-- The scope flags, seven bits wide. -/
  scopeFlags : ℕ

/-- What saving and loading use of `bytecode_prelude_t`. -/
structure Prelude where
  scopeFlags : ℕ
  nPosArgs : ℕ
  /-- The number of keyword-only arguments. -/
  nKwonlyArgs : ℕ

/-- `while (*(*ip)++ != 255)`: the bytes after the list of cells. -/
def skipCells : List ℕ→Option (List ℕ)
  | [] => none
  | byte::ip => if byte=255 then some ip else skipCells ip

/-- `extract_prelude`: the prelude, the bytecode from the two qstrs on, and the
bytecode from the opcodes on. -/
def extractPrelude (bytecode : List ℕ) : Option (Prelude×List ℕ×List ℕ) := do
  let (_,ip) ← mpDecodeUint bytecode
  let (_,ip) ← mpDecodeUint ip
  match ip with
  | scopeFlags::nPosArgs::nKwonlyArgs::_::ip =>
    -- the size counts from here, its own bytes included
    let (codeInfoSize,ip2) ← mpDecodeUint ip
    let ip ← skipCells (ip.drop codeInfoSize)
    some (⟨scopeFlags,nPosArgs,nKwonlyArgs⟩,ip2,ip)
  | _ => none

/-! ## Saving -/

/-- `save_qstr`: the length and the bytes of a qstr. A number that the pool does
not have has no string. -/
def saveQstr (qstrs : Pool Str) (qst : ℕ) : Option (List ℕ) :=
  (qstrs.item qst).map fun str => mpPrintUint str.length++str

/-- `save_obj` -/
def saveObj : Obj→List ℕ
  | .str s => 115::mpPrintUint s.length++s -- 's'
  | .bytes s => 98::mpPrintUint s.length++s -- 'b'
  | .ellipsis => [101] -- 'e'
  | .int n => 105::mpPrintUint (mpObjIntPrint n).length++mpObjIntPrint n -- 'i'

/-- `save_qstr` of the two bytes after an opcode. -/
def saveOperand (qstrs : Pool Str) : List ℕ→Option (List ℕ)
  | lo::hi::_ => saveQstr qstrs (lo|||(hi<<<8))
  | _ => none

/-- `save_bytecode_qstrs` -/
def saveBytecodeQstrs (cache : Bool) (qstrs : Pool Str) : List ℕ→Option (List ℕ)
  | [] => some []
  | byte::ip => do
    let f := mpOpcodeFormat cache (byte::ip)
    let here ← if f.1=.qstr then saveOperand qstrs ip else some []
    let rest ← saveBytecodeQstrs cache qstrs ((byte::ip).drop f.2)
    some (here++rest)
termination_by ip => ip.length
decreasing_by exact drop_size_lt cache byte ip

/-- `save_qstr` of some argument names. -/
def saveQstrs (qstrs : Pool Str) : List ℕ→Option (List ℕ)
  | [] => some []
  | qst::qsts => do
    let here ← saveQstr qstrs qst
    let rest ← saveQstrs qstrs qsts
    some (here++rest)

mutual
/-- `save_raw_code`. The prelude must tell how many argument names there are, and
the two numbers of constants are sixteen bits wide. -/
def saveRawCode (cache : Bool) (qstrs : Pool Str) : RawCode→Option (List ℕ)
  | ⟨bytecode,argNames,objs,rawCodes,_⟩ => do
    let (prelude,ip2,ip) ← extractPrelude bytecode
    match ip2 with
    | name0::name1::file0::file1::_ =>
      let simpleName ← saveQstr qstrs (name0|||(name1<<<8))
      let sourceFile ← saveQstr qstrs (file0|||(file1<<<8))
      let operands ← saveBytecodeQstrs cache qstrs ip
      if argNames.length=prelude.nPosArgs+prelude.nKwonlyArgs then
        let names ← saveQstrs qstrs argNames
        let inner ← saveRawCodes cache qstrs rawCodes
        some (mpPrintUint bytecode.length++(bytecode++(simpleName++(sourceFile++(operands++
          (mpPrintUint (objs.length%65536)++(mpPrintUint (rawCodes.length%65536)++
            (names++(objs.flatMap saveObj++inner)))))))))
      else none
    | _ => none

/-- `save_raw_code` of the raw codes inside. -/
def saveRawCodes (cache : Bool) (qstrs : Pool Str) : List RawCode→Option (List ℕ)
  | [] => some []
  | rc::rcs => do
    let here ← saveRawCode cache qstrs rc
    let rest ← saveRawCodes cache qstrs rcs
    some (here++rest)
end

/-- `mp_raw_code_save` -/
def mpRawCodeSave (cfg : Config) (qstrs : Pool Str) (rc : RawCode) : Option (List ℕ) := do
  let body ← saveRawCode cfg.cache qstrs rc
  some ([77,mpyVersion,mpyFeatureFlags cfg,cfg.smallIntBits]++body)

/-! ## Loading -/

/-- Ways in which loading fails. -/
inductive LoadError where
  /-- A `ValueError` with its text. -/
  | valueError (text : String)
  | endOfFile
  /-- The loader reads or writes outside the bytecode. -/
  | outOfBounds
  /-- A type byte of an object that only builds with floats write. -/
  | objType

/-- A reader of the file with the qstr pool of the loading side. -/
abbrev Load (α : Type) := Reader ℕ (Pool Str) LoadError α

/-- `read_byte` -/
def readByte : Load ℕ := readItem .endOfFile

/-- `read_bytes` -/
def readBytes (len : ℕ) : Load (List ℕ) := readMany readByte len

/-- `read_uint`, the loop of `mp_decode_uint` over the reader. -/
def readUint : Load ℕ := fun (bytes,qstrs) =>
  match mpDecodeUint bytes with
  | none => .error .endOfFile
  | some (unum,bytes) => .ok (unum,(bytes,qstrs))

/-- `qstr_from_strn` -/
def qstrFromStrn (str : Str) : Load ℕ := fun (bytes,qstrs) =>
  .ok ((qstrs.intern str).number str,(bytes,qstrs.intern str))

/-- `load_qstr` -/
def loadQstr : Load ℕ := do
  let len ← readUint
  let str ← readBytes len
  qstrFromStrn str

/-- `load_obj` -/
def loadObj (bits : ℕ) : Load Obj := do
  let objType ← readByte
  if objType=101 then pure .ellipsis
  else
    let len ← readUint
    let str ← readBytes len
    if objType=115 then pure (.str str)
    else if objType=98 then pure (.bytes str)
    else if objType=105 then
      match mpParseNumInteger bits 10 str with
      | some n => pure (.int n)
      | none => throw (.valueError "invalid syntax for integer with base 10")
    else throw .objType

/-- An opcode with the qstr that is loaded into the two bytes after it. -/
def loadOperand (opcode : ℕ) : List ℕ→Load (List ℕ)
  | _::_::_ => do
    let qst ← loadQstr
    pure (opcode::twoBytes qst)
  | _ => throw .outOfBounds

/-- `load_bytecode_qstrs`: the opcodes with the new numbers in them. -/
def loadBytecodeQstrs (cache : Bool) : List ℕ→Load (List ℕ)
  | [] => pure []
  | byte::ip => do
    let f := mpOpcodeFormat cache (byte::ip)
    let here ← if f.1=.qstr then loadOperand byte ip else pure ((byte::ip).take f.2)
    let rest ← loadBytecodeQstrs cache ((byte::ip).drop f.2)
    pure (here++rest)
termination_by ip => ip.length
decreasing_by exact drop_size_lt cache byte ip

/-- `load_raw_code`. The depth bounds the raw codes inside one another. -/
def loadRawCode (cfg : Config) : ℕ→Load RawCode
  | 0 => throw .endOfFile
  | depth+1 => do
    let bcLen ← readUint
    let bytecode ← readBytes bcLen
    match extractPrelude bytecode with
    | some (prelude,_::_::_::_::ip2,ip) =>
      let simpleName ← loadQstr
      let sourceFile ← loadQstr
      -- link global qstr ids into bytecode, between `ip2` and the opcodes too
      let front := bytecode.take (bytecode.length-(ip2.length+4))
      let middle := ip2.take (ip2.length-ip.length)
      let opcodes ← loadBytecodeQstrs cfg.cache ip
      let nObj ← readUint
      let nRawCode ← readUint
      let argNames ← readMany loadQstr (prelude.nPosArgs+prelude.nKwonlyArgs)
      let objs ← readMany (loadObj cfg.smallIntBits) nObj
      let rawCodes ← readMany (loadRawCode cfg depth) nRawCode
      pure ⟨front++(twoBytes simpleName++(twoBytes sourceFile++(middle++opcodes))),argNames,objs,
        rawCodes,prelude.scopeFlags%128⟩
    | _ => throw .outOfBounds

/-- The check of the header, and the raw code after it. -/
def loadFile (cfg : Config) (depth : ℕ) : Load RawCode := do
  let header ← readBytes 4
  match header with
  | [m,version,flags,bits] =>
    if m≠77∨version≠mpyVersion∨flags≠mpyFeatureFlags cfg∨cfg.smallIntBits<bits then
      throw (.valueError "incompatible .mpy file")
    else loadRawCode cfg depth
  | _ => throw .endOfFile

/-- `mp_raw_code_load` from a file with these bytes. Raw codes inside one another are
not deeper than the file is long. -/
def mpRawCodeLoad (cfg : Config) (file : List ℕ) (qstrs : Pool Str) :
    Except LoadError (RawCode×Pool Str) :=
  match (loadFile cfg file.length).run (file,qstrs) with
  | .ok (rc,(_,qstrs)) => .ok (rc,qstrs)
  | .error e => .error e

end MicroPython.PersistentCode
