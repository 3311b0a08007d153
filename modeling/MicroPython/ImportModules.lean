import Mathlib.Logic.Function.Basic
import MicroPython.FallibleRuns

/-!
# Imports

A module is registered under its dotted name before its body is run, and what the body imports is
imported while it runs. The components of a name are processed one after another with one path
buffer, and each module that is found is stored in the one before. When a body fails nothing is
taken back.
-/

namespace MicroPython.ImportModules

open FallibleRuns

/-! ## Names and objects -/

/-- A part of a dotted name, which is not empty and has no dot in it. -/
def Ident : Type := {s : List Char//s≠[] ∧ '.'∉s}

/-- Identifiers are compared by their characters. -/
instance : DecidableEq Ident := inferInstanceAs (DecidableEq {s : List Char//s≠[] ∧ '.'∉s})

/-- A dotted name by its parts. No other name has the same characters. -/
abbrev Name : Type := List Ident

/-- The characters of a name. -/
def dotted : Name→List Char
  | [] => []
  | [c] => c.1
  | c::d::n => c.1++ '.'::dotted (d::n)

/-- `MP_QSTR___main__` -/
def mainName : Ident := ⟨"__main__".toList,by decide⟩

/-- An object that a name can stand for. -/
inductive Obj where
  | module (n : Name)
  | builtin (b : ℕ)
  deriving DecidableEq

/-- What is raised. -/
inductive Err where
  /-- `ImportError` for a name. -/
  | importError (n : Name)
  /-- `ImportError` of a `from` list. -/
  | cannotImport (c : Ident)
  /-- `RuntimeError`, when the path buffer is full. -/
  | pathTooLong
  /-- `RuntimeError`, when the stack is full. -/
  | recursion
  /-- `ValueError` for a relative import. -/
  | relativeImport
  /-- `KeyError` for the name of the program. -/
  | keyError
  /-- What the body of a module raises. -/
  | raised (e : ℕ)
  deriving DecidableEq

/-- What happens, for the statements about it. The code keeps no such record. -/
inductive Event where
  | started (n : Name)
  /-- The body of a module has raised an exception. -/
  | raised (n : Name)
  /-- A module is loaded: its body, if it has one, has run to its end. -/
  | completed (n : Name)
  /-- The body of a module stores something in its own dictionary. -/
  | assigned (n : Name) (c : Ident)
  /-- The import of a name, with or without a `from` list, has returned. -/
  | returned (n : Name) (fromList : Bool) (v : Option Obj)
  deriving DecidableEq

/-- The modules. -/
structure World where
  /-- `mp_loaded_modules_dict` -/
  loaded : Name→Option Obj
  /-- `__path__` of a module, if it has one. -/
  path : Name→Option (List Char)
  /-- The dictionaries of the modules. -/
  attrs : Obj→Ident→Option Obj
  /-- What has happened, the last first. -/
  log : List Event

/-- No module is loaded. -/
def World.start : World := ⟨fun _ => none,fun _ => none,fun _ _ => none,[]⟩

/-- A program that changes the modules, and may raise something. -/
abbrev Act : Type→Type := EStateM Err World

/-- Something happens. -/
def World.record (e : Event) (w : World) : World := {w with log := e::w.log}

/-- `mp_module_register` -/
def World.register (n : Name) (o : Obj) (w : World) : World :=
  {w with loaded := Function.update w.loaded n (some o)}

/-- A new module, with nothing in its dictionary. -/
def World.create (n : Name) (w : World) : World :=
  {w with
    loaded := Function.update w.loaded n (some (.module n))
    path := Function.update w.path n none
    attrs := Function.update w.attrs (.module n) fun _ => none}

/-- Something is stored in a dictionary. -/
def World.store (o : Obj) (c : Ident) (v : Obj) (w : World) : World :=
  {w with attrs := Function.update w.attrs o (Function.update (w.attrs o) c (some v))}

/-- `__path__` is stored. -/
def World.setPath (n : Name) (p : List Char) (w : World) : World :=
  {w with path := Function.update w.path n (some p)}

/-- An `import` statement: `import a.b` and `from a.b import x`, with the dots of a relative
import, which only a `from` list can have. -/
structure Statement where
  /-- The name without the dots before it. -/
  name : Name
  /-- There is a `from` list. -/
  fromList : Bool
  /-- The number of dots before the name. -/
  level : ℕ
  /-- Without dots there is a name. -/
  absolute : level=0 → name≠[]
  /-- With dots there is a `from` list. -/
  relative : level≠0 → fromList=true

/-- The body of a module. What it does next can depend on what an import has returned or raised
and on what is in the dictionaries. -/
inductive Body where
  | finish
  | raise (e : Err)
  | importName (s : Statement) (next : Except Err (Option Obj)→Body)
  /-- Something is stored in the dictionary of the module. -/
  | store (c : Ident) (v : Obj) (next : Body)
  /-- Something is read from a dictionary. -/
  | load (o : Obj) (c : Ident) (next : Option Obj→Body)
  | packageName (o : Obj) (next : Option Name→Body)

/-- `mp_import_from` -/
def mpImportFrom (module : Obj) (c : Ident) (next : Except Err (Option Obj)→Body) : Body :=
  .load module c fun v =>
    match v with
    | some v => next (.ok (some v))
    | none => .packageName module fun pkgName =>
      match pkgName with
      | none => next (.error (.cannotImport c))
      | some n => .importName ⟨n++[c],true,0,fun _ => List.append_ne_nil_of_right_ne_nil n
          (List.cons_ne_nil c []),fun _ => rfl⟩ next

/-- `mp_import_stat_t` -/
inductive Stat where
  /-- `MP_IMPORT_STAT_NO_EXIST` -/
  | noExist
  /-- `MP_IMPORT_STAT_DIR` -/
  | dir
  /-- `MP_IMPORT_STAT_FILE` -/
  | file
  deriving DecidableEq

/-- The files, the search path and the modules that are built in. -/
structure Env where
  /-- `mp_import_stat_any` -/
  stat : List Char→Stat
  body : List Char→Body
  /-- `mp_sys_path` -/
  sysPath : List (List Char)
  /-- `mp_builtin_module_map` -/
  builtin : Ident→Option ℕ
  /-- `mp_builtin_module_weak_links_map` -/
  weakLink : Ident→Option ℕ
  /-- `__init__` of a module that is built in: what it raises, if anything. -/
  init : ℕ→Option (Option Err)
  /-- The dictionary cannot be changed. -/
  isFixed : ℕ→Bool

/-- A name in a map of the modules that are built in. No name there has a dot. -/
def plainName (table : Ident→Option ℕ) : Name→Option ℕ
  | [c] => table c
  | _ => none

/-! ## Paths -/

/-- `MICROPY_ALLOC_PATH_MAX` -/
def allocPathMax : ℕ := 128

/-- `vstr_add_strn` for a buffer that cannot grow. -/
def addStrn (path s : List Char) : Except Err (List Char) :=
  if allocPathMax < path.length+s.length then .error .pathTooLong else .ok (path++s)

/-- `mp_import_stat_any` of a path with its end in the buffer. -/
def statAny (env : Env) (path : List Char) : Except Err Stat :=
  if path.length=allocPathMax then .error .pathTooLong else .ok (env.stat path)

/-- `vstr_ins_byte` of an `m` before the last two characters. -/
def insM (path : List Char) : Except Err (List Char) :=
  if allocPathMax < path.length+1 then .error .pathTooLong
  else .ok (path.take (path.length-2)++ 'm'::path.drop (path.length-2))

/-- `stat_file_py_or_mpy` -/
def statFilePyOrMpy (env : Env) (path : List Char) : Except Err (Stat×List Char) := do
  let stat ← statAny env path
  if stat=.file then .ok (stat,path)
  else
    let path ← insM path
    let stat ← statAny env path
    if stat=.file then .ok (stat,path) else .ok (.noExist,path)

/-- `stat_dir_or_file` -/
def statDirOrFile (env : Env) (path : List Char) : Except Err (Stat×List Char) := do
  let stat ← statAny env path
  if stat=.dir then .ok (stat,path)
  else
    let path ← addStrn path ".py".toList
    statFilePyOrMpy env path

/-- The loop over the search path. -/
def findFileLoop (env : Env) (file : List Char) :
    List (List Char)→List Char→Except Err (Stat×List Char)
  | [],dest => .ok (.noExist,dest)
  | p::paths,_ => do
    let dest ← addStrn [] p
    let dest ← if p=[] then .ok dest else addStrn dest ['/']
    let dest ← addStrn dest file
    let (stat,dest) ← statDirOrFile env dest
    if stat≠.noExist then .ok (stat,dest) else findFileLoop env file paths dest

/-- `find_file` -/
def findFile (env : Env) (file dest : List Char) : Except Err (Stat×List Char) :=
  if env.sysPath=[] then do
    let dest ← addStrn dest file
    statDirOrFile env dest
  else findFileLoop env file env.sysPath dest

/-- The file or the directory of a name, whose last part is `c`. -/
def findComponent (env : Env) (n : Name) (c : Ident) (path : List Char) :
    Except Err (Stat×List Char) :=
  if path=[] then findFile env (dotted n) path
  else do
    let path ← addStrn path ['/']
    let path ← addStrn path c.1
    statDirOrFile env path

/-! ## Loading -/

/-- Something happens. -/
def record (e : Event) : Act Unit := modify (World.record e)

/-- `__init__` of a module that is built in is called, and the module is registered. -/
def callInit (env : Env) (n : Name) (b : ℕ) : Act Unit :=
  match env.init b with
  | none => pure ()
  | some (some e) => throw e
  | some none => modify (World.register n (.builtin b))

/-- `mp_module_get` -/
def mpModuleGet (env : Env) (n : Name) : Act (Option Obj) := do
  let w ← get
  match w.loaded n with
  | some o => pure (some o)
  | none =>
    match plainName env.builtin n with
    | none => pure none
    | some b => do
      callInit env n b
      pure (some (.builtin b))

/-- `mp_obj_new_module` -/
def mpObjNewModule (n : Name) : Act Obj := do
  let w ← get
  match w.loaded n with
  | some o => pure o
  | none => do
    modify (World.create n)
    pure (.module n)

/-- `mp_store_attr` of a module. -/
def mpStoreAttr (env : Env) (o : Obj) (c : Ident) (v : Obj) : Act Unit :=
  match o with
  | .module n => modify (World.store (.module n) c v)
  | .builtin b => if env.isFixed b then pure () else modify (World.store (.builtin b) c v)

/-- The `__init__.py` of a package. -/
def findInit (env : Env) (path : List Char) : Except Err (Stat×List Char) := do
  let path ← addStrn path ['/']
  let path ← addStrn path "__init__.py".toList
  statFilePyOrMpy env path

/-- A new module is loaded: a package from its `__init__.py`, if it has one. -/
def loadModule (doLoad : Name→List Char→Act Unit) (env : Env) (n : Name) (stat : Stat)
    (path : List Char) : Act Unit :=
  if stat=.dir then do
    modify (World.setPath n path)
    match findInit env path with
    | .error e => throw e
    | .ok (stat,path) => if stat≠.file then pure () else doLoad n path
  else doLoad n path

/-- The module of a component: from the weak links, already there, or new. -/
def getComponent (doLoad : Name→List Char→Act Unit) (env : Env) (n : Name) (last : Bool)
    (stat : Stat) (path : List Char) : Act Obj :=
  if stat=.noExist then
    if last then
      match plainName env.weakLink n with
      | none => throw (.importError n)
      | some b => do
        callInit env n b
        pure (.builtin b)
    else throw (.importError n)
  else do
    let found ← mpModuleGet env n
    match found with
    | some o => pure o
    | none => do
      let o ← mpObjNewModule n
      loadModule doLoad env n stat path
      record (.completed n)
      pure o

/-- A module is stored in the one before, if there is one. -/
def storeOuter (env : Env) (outer : Option Obj) (c : Ident) (o : Obj) : Act Unit :=
  match outer with
  | none => pure ()
  | some outer => mpStoreAttr env outer c o

/-- The loop over the components. After each of them `outer_module_obj` is `module_obj`. -/
def importLoop (doLoad : Name→List Char→Act Unit) (env : Env) :
    Name→List Ident→List Char→Option Obj→Option Obj→Act (Option Obj×Option Obj)
  | _,[],_,top,outer => pure (outer,top)
  | done,c::rest,path,top,outer =>
    match findComponent env (done++[c]) c path with
    | .error e => throw e
    | .ok (stat,path) => do
      let o ← getComponent doLoad env (done++[c]) rest.isEmpty stat path
      storeOuter env outer c o
      importLoop doLoad env (done++[c]) rest path (top.or (some o)) (some o)

/-- An import of a name that is not relative. -/
def importAbsolute (doLoad : Name→List Char→Act Unit) (env : Env) (n : Name)
    (fromList : Bool) : Act (Option Obj) := do
  let found ← mpModuleGet env n
  match found with
  | some o => if n.length≤1∨fromList then pure (some o) else mpModuleGet env (n.take 1)
  | none => do
    let r ← importLoop doLoad env [] n [] none none
    pure (if fromList then r.1 else r.2)

/-- `chop_component` several times. -/
def chopComponents : ℕ→Name→Name
  | 0,n => n
  | level+1,n => chopComponents level n.dropLast

/-- The package where a relative import starts. A module that is no package is left first. -/
def relativeBase (w : World) (this : Name) (level : ℕ) : Name :=
  chopComponents (level-1) (if (w.path this).isSome then this else chopComponents 1 this)

/-- The name of a relative import, from the name of the module where it is. In the program itself
there is no such name. -/
def resolve (w : World) (globals : Option Name) (s : Statement) : Except Err Name :=
  if s.level=0 then .ok s.name
  else
    match globals with
    | none => .error .keyError
    | some this =>
      if this=[mainName] then .error .keyError
      else if relativeBase w this s.level=[] then .error .relativeImport
      else .ok (relativeBase w this s.level++s.name)

/-- An import from the module of the globals. -/
def importName (doLoad : Name→List Char→Act Unit) (env : Env) (globals : Option Name)
    (s : Statement) : Act (Option Obj) := do
  let w ← get
  match resolve w globals s with
  | .error e => throw e
  | .ok n => do
    let v ← importAbsolute doLoad env n s.fromList
    record (.returned n s.fromList v)
    pure v

/-- The body of a module is run. -/
def runBody (doImport : Statement→Act (Option Obj)) (n : Name) : Body→Act Unit
  | .finish => pure ()
  | .raise e => throw e
  | .importName s next => do
    let r ← attempt (doImport s)
    runBody doImport n (next r)
  | .store c v next => do
    modify fun w => (w.store (.module n) c v).record (.assigned n c)
    runBody doImport n next
  | .load o c next => do
    let w ← get
    runBody doImport n (next (w.attrs o c))
  | .packageName o next => do
    let w ← get
    runBody doImport n (next (match o with
      | .module m => if (w.path m).isSome then some m else none
      | .builtin _ => none))

/-- `do_load` -/
def doLoad (env : Env) (doImport : Name→Statement→Act (Option Obj)) (n : Name)
    (path : List Char) : Act Unit := do
  record (.started n)
  let r ← attempt (runBody (doImport n) n (env.body path))
  match r with
  | .ok () => pure ()
  | .error e => do
    record (.raised n)
    throw e

/-- `mp_builtin___import__`. There is stack for a number of bodies inside one another, and one
more raises an exception. -/
def mpBuiltinImport (env : Env) : ℕ→Option Name→Statement→Act (Option Obj)
  | 0 => importName (fun _ _ => throw .recursion) env
  | depth+1 => importName (doLoad env fun n => mpBuiltinImport env depth (some n)) env

/-- The imports of a program, each of which can be caught. -/
def runProgram (env : Env) (depth : ℕ) : List Statement→Act (List (Except Err (Option Obj)))
  | [] => pure []
  | s::statements => do
    let r ← attempt (mpBuiltinImport env depth none s)
    let rs ← runProgram env depth statements
    pure (r::rs)

/-- The modules after a program, with nothing loaded before it. -/
def worldAfter (env : Env) (depth : ℕ) (statements : List Statement) : World :=
  match runProgram env depth statements World.start with
  | .ok _ w => w
  | .error _ w => w

/-- What the imports of a program return or raise. -/
def resultsOf (env : Env) (depth : ℕ) (statements : List Statement) :
    List (Except Err (Option Obj)) :=
  match runProgram env depth statements World.start with
  | .ok rs _ => rs
  | .error _ _ => []

end MicroPython.ImportModules
