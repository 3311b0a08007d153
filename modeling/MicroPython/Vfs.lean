import MicroPython.InputMachine
import Mathlib.Data.List.Pairwise
import Mathlib.Data.List.TakeWhile

/-!
# The mount table

File systems are mounted at paths. A path is looked up by the first mount point of the
table that is a front of it, so everything rests on the order in which mounting inserts and
on what it refuses. The calls of the methods of the file systems are answered from outside.
-/

namespace MicroPython.Vfs

open Nat List InputMachine

variable {ε : Type}

/-- A file system in the mount table. -/
structure Mount where
  /-- The structure's place in memory. -/
  place : ℕ
  /-- The mount point with its leading slash. -/
  str : List UInt8
  /-- The file system. -/
  obj : ℕ
deriving DecidableEq

/-- What a pointer to a file system of the table is. -/
inductive Found
  /-- The virtual root directory, which is no file system. -/
  | root
  | none
  | mount (m : Mount)
deriving DecidableEq

/-- The mounted file systems. -/
structure State where
  mountTable : List Mount
  /-- The file system of the current directory. -/
  vfsCur : Found
  /-- The number of structures that have been made. -/
  made : ℕ
deriving DecidableEq

/-- Nothing is mounted. -/
def initial : State := ⟨[],.root,0⟩

/-- An object that is given to a function. -/
inductive Obj
  | str (s : List UInt8)
  | bytes (s : List UInt8)
  | object (obj : ℕ)
deriving DecidableEq

/-- What is raised. -/
inductive Raised (ε : Type)
  /-- A `TypeError`. -/
  | typeError
  /-- An `OSError` with its number. -/
  | osError (errno : ℕ)
  /-- What a method of a file system raises. -/
  | method (e : ε)
deriving DecidableEq

/-- `MP_EPERM`. -/
def mpEPERM : ℕ := 1

/-- `MP_ENODEV`. -/
def mpENODEV : ℕ := 19

/-- `MP_EINVAL`. -/
def mpEINVAL : ℕ := 22

/-- The data of a string or of bytes. -/
def mpObjStrGetData : Obj→Except (Raised ε) (List UInt8)
  | .str s => .ok s
  | .bytes s => .ok s
  | .object _ => .error .typeError

/-- The text of a string or of bytes up to the first null byte. -/
def mpObjStrGetStr (o : Obj) : Except (Raised ε) (List UInt8) :=
  (mpObjStrGetData o).map fun s => s.takeWhile (·≠0)

/-- Two texts are the same up to a number of characters. -/
def strncmp : List UInt8→List UInt8→ℕ→Bool
  | _,_,0 => true
  | [],[],_+1 => true
  | [],d::_,_+1 => d=0
  | c::_,[],_+1 => c=0
  | c::cs,d::ds,n+1 => c=d&&(c=0||strncmp cs ds n)

/-- The walk over the mount table for what comes after the slash of a path, and the path
within the file system that is found. -/
def lookupMount : List Mount→List UInt8→Bool→Option (Mount×List UInt8)
  | [],_,_ => none
  | vfs::rest,path,isAbs =>
    let len := vfs.str.length-1
    if len=0 then some (vfs,if isAbs then 47::path else path)
    else if strncmp path (vfs.str.drop 1) len then
      match path[len]? with
      | none => some (vfs,[47])
      | some c => if c=47 then some (vfs,path.drop len) else lookupMount rest path isAbs
    else lookupMount rest path isAbs

/-- A path that has not been found in the table, relative to the current directory. -/
def relative (vfs : State) (path : List UInt8) : Found×List UInt8 :=
  (vfs.vfsCur,path)

/-- The file system for a path, with the path within it. That one means nothing when there
is no file system. -/
def mpVfsLookupPath (vfs : State) (path : List UInt8) : Found×List UInt8 :=
  match path with
  | [] => if vfs.vfsCur=.root then (.root,[]) else relative vfs path
  | c::tail =>
    if c=47 then
      if tail=[] then (.root,[])
      else
        match lookupMount vfs.mountTable tail true with
        | some (m,out) => (.mount m,out)
        | none => (.none,[])
    else if vfs.vfsCur=.root then
      match lookupMount vfs.mountTable path false with
      | some (m,out) => (.mount m,out)
      | none => relative vfs path
    else relative vfs path

/-- The call of a method of a file system, answered from outside. -/
def mpVfsProxyCall (vfs : Found) (answer : Except ε Unit) : Except (Raised ε) Unit :=
  match vfs with
  | .none => .error (.osError mpENODEV)
  | .root => .error (.osError mpEPERM)
  | .mount _ => answer.mapError .method

/-- A new file system comes last, but before one that is mounted at the root. -/
def insertMount : List Mount→Mount→List Mount
  | [],vfs => [vfs]
  | m::rest,vfs => if m.str.length=1 then vfs::m::rest else m::insertMount rest vfs

/-- The mount point is in use. -/
def inUse (existing : Found) (len : ℕ) : Bool :=
  match existing with
  | .root => false
  | .none => false
  | .mount m => !(len≠1&&m.str.length=1)

/-- The comparisons with a text stay inside it: there is something after the slash or nothing,
and no null byte ends it before its length. -/
def IsText (s : List UInt8) : Prop := s≠[]∧0∉s

instance (s : List UInt8) : Decidable (IsText s) := inferInstanceAs (Decidable (_∧_))

/-- A comparison runs past the end of a text. -/
inductive Fault
  | outOfBounds
deriving DecidableEq

/-- `mount`: an object, which has a method `mount` or is made into a file system, is mounted
when its method does not raise. `made` is that file system or what its making raises, and
`answer` is what the method gives. -/
def mpVfsMount (vfs : State) (mnt : Obj) (made : Except ε ℕ) (answer : Except ε Unit) :
    Except Fault (State×Except (Raised ε) Unit) :=
  match mpObjStrGetData mnt with
  | .error e => .ok (vfs,.error e)
  | .ok str =>
    match made with
    | .error e => .ok (vfs,.error (.method e))
    | .ok obj =>
      let new : Mount := ⟨vfs.made,str,obj⟩
      let vfs := {vfs with made := vfs.made+1}
      match mpVfsProxyCall (.mount new) answer with
      | .error e => .ok (vfs,.error e)
      | .ok _ =>
        let existing := (mpVfsLookupPath vfs (str.takeWhile (·≠0))).1
        if inUse existing str.length then .ok (vfs,.error (.osError mpEPERM))
        else if IsText str then
          .ok ({vfs with mountTable := insertMount vfs.mountTable new},.ok ())
        else .error .outOfBounds

/-- An entry of the table is the one to unmount. -/
def isMount (mnt : Obj) (m : Mount) : Bool :=
  match mnt with
  | .str s => m.str=s
  | .bytes _ => false
  | .object obj => m.obj=obj

/-- A comparison with an entry of the table may run past its end. -/
def Overruns (mnt : Obj) : Prop :=
  match mnt with
  | .str s => 0∈s
  | _ => False

instance (mnt : Obj) : Decidable (Overruns mnt) := by
  cases mnt with
  | str s => exact inferInstanceAs (Decidable (0∈s))
  | bytes s => exact .isFalse id
  | object obj => exact .isFalse id

/-- `umount`: the file system at a mount point, or the one that is given. -/
def mpVfsUmount (vfs : State) (mnt : Obj) (answer : Except ε Unit) :
    Except Fault (State×Except (Raised ε) Unit) :=
  if Overruns mnt then .error .outOfBounds
  else
    match vfs.mountTable.find? (isMount mnt) with
    | none => .ok (vfs,.error (.osError mpEINVAL))
    | some m =>
      let vfs := {vfs with mountTable := vfs.mountTable.eraseP (isMount mnt)}
      let vfs := if vfs.vfsCur=.mount m then {vfs with vfsCur := .root} else vfs
      .ok (vfs,mpVfsProxyCall (.mount m) answer)

/-- `chdir`: the file system of a path becomes the current one, and is told. -/
def mpVfsChdir (vfs : State) (path : Obj) (answer : Except ε Unit) : State×Except (Raised ε) Unit :=
  match mpObjStrGetStr path with
  | .error e => (vfs,.error e)
  | .ok path =>
    let found := (mpVfsLookupPath vfs path).1
    let vfs := {vfs with vfsCur := found}
    if found=.root then
      match vfs.mountTable.find? (fun m => m.str.length=1) with
      | none => (vfs,.ok ())
      | some m => (vfs,mpVfsProxyCall (.mount m) answer)
    else (vfs,mpVfsProxyCall found answer)

/-- A call of a function, with what the method of the file system gives. -/
inductive Op (ε : Type)
  /-- `mount`. -/
  | mount (mnt : Obj) (made : Except ε ℕ) (answer : Except ε Unit)
  /-- `umount`. -/
  | umount (mnt : Obj) (answer : Except ε Unit)
  /-- `chdir`. -/
  | chdir (path : Obj) (answer : Except ε Unit)

/-- One call. -/
def step (vfs : State) : Op ε→Except Fault (State×Except (Raised ε) Unit)
  | .mount mnt made answer => mpVfsMount vfs mnt made answer
  | .umount mnt answer => mpVfsUmount vfs mnt answer
  | .chdir path answer => .ok (mpVfsChdir vfs path answer)

/-! ## What the table is for -/

/-- A mount point is a path that begins with a slash. -/
def IsPoint (s : List UInt8) : Prop := s.head?=some 47∧0∉s

/-- A mount point is a front of a path that ends between two components. The root is a
front of every path that begins with a slash. -/
def Covers (point path : List UInt8) : Prop :=
  point=[47]∧path.head?=some 47∨point=path∨(point++[47])<+:path

/-- The path within a file system. -/
def remaining (point path : List UInt8) : List UInt8 :=
  if point=[47] then path else if point=path then [47] else path.drop point.length

/-- The file system with the longest mount point that is a front of a path, with the path
within it. -/
inductive Resolves (table : List Mount) (path : List UInt8) : Found×List UInt8→Prop
  /-- The file system with the longest one. -/
  | mount {m : Mount} : m∈table → Covers m.str path →
      (∀ m'∈table,Covers m'.str path → m'.str.length ≤ m.str.length) →
      Resolves table path (.mount m,remaining m.str path)
  | none : (∀ m∈table,¬Covers m.str path) → Resolves table path (.none,[])

/-- No mount point is a front of a later one, except for the root. -/
def Ordered (table : List Mount) : Prop :=
  table.Pairwise fun m m' => Covers m.str m'.str → m.str=[47]∧m'.str=[47]

/-! ## Fronts of paths -/

variable {s path point : List UInt8}

/-- A text is a front of another one when the two are the same up to its length. -/
theorem strncmp_iff (hs : 0∉s) : ∀ path : List UInt8,strncmp path s s.length=true↔s<+:path := by
  induction s with
  | nil => exact fun path => ⟨fun _ => nil_prefix,fun _ => by cases path <;> rfl⟩
  | cons d ds ih =>
    have hd : d≠0 := fun h => hs (by rw [h]; exact mem_cons_self)
    have hds : 0∉ds := fun h => hs (mem_cons_of_mem _ h)
    intro path
    cases path with
    | nil =>
      constructor
      · intro h
        exact absurd (of_decide_eq_true h) hd
      · intro h
        cases prefix_nil.mp h
    | cons c cs =>
      rw [length_cons,strncmp,Bool.and_eq_true,decide_eq_true_iff,Bool.or_eq_true,
        decide_eq_true_iff,ih hds cs,cons_prefix_cons]
      constructor
      · rintro ⟨rfl,h | h⟩
        · exact absurd h hd
        · exact ⟨rfl,h⟩
      · rintro ⟨rfl,h⟩
        exact ⟨rfl,.inr h⟩

/-- Of two mount points that are fronts of one path, the shorter is a front of the longer. -/
theorem Covers.of_lt {point' : List UInt8} (h : Covers point path) (h' : Covers point' path)
    (hpoint' : point'.head?=some 47) (hlt : point.length<point'.length) :
    Covers point point' := by
  have hle : point'.length≤path.length := by
    rcases h' with ⟨rfl,hhead⟩ | rfl | hpre
    · cases path with
      | nil => cases hhead
      | cons c cs => exact succ_le_succ (zero_le _)
    · exact Nat.le_refl _
    · have hlen := hpre.length_le
      rw [length_append,length_singleton] at hlen
      omega
  rcases h with ⟨rfl,hhead⟩ | rfl | hpre
  · exact .inl ⟨rfl,hpoint'⟩
  · omega
  · rcases h' with ⟨rfl,_⟩ | rfl | hpre'
    · rw [length_singleton] at hlt
      have hnil := eq_nil_of_length_eq_zero (lt_one_iff.mp hlt)
      rw [hnil]
      exact .inr (.inr (prefix_refl _))
    · exact .inr (.inr hpre)
    · refine .inr (.inr (prefix_of_prefix_length_le hpre ((prefix_append _ _).trans hpre') ?_))
      rw [length_append,length_singleton]
      omega

/-- The root is only a path of its own for another mount point. -/
theorem not_covers_root (hpoint : point.head?=some 47) (hne : point≠[47]) : ¬Covers point [47] := by
  rintro (⟨h,_⟩ | h | h)
  · exact hne h
  · exact hne h
  · have hlen := h.length_le
    rw [length_append,length_singleton] at hlen
    cases point with
    | nil => cases hpoint
    | cons c cs =>
      rw [length_cons] at hlen
      omega

/-! ## The walk over the table -/

/-- A mount point after its slash. -/
theorem IsPoint.eq_cons (h : IsPoint s) : s=47::s.drop 1 := by
  obtain ⟨hhead,_⟩ := h
  cases s with
  | nil => cases hhead
  | cons c cs =>
    cases hhead
    rfl

theorem IsPoint.eq_root_iff (h : IsPoint s) : s=[47]↔s.length-1=0 := by
  have hcons := h.eq_cons
  constructor
  · intro heq
    rw [heq]
    rfl
  · intro hlen
    have hdrop : s.drop 1=[] := drop_eq_nil_of_le (by omega)
    rw [hcons,hdrop]

/-- A mount point with something after its slash is a front of a path when what is after it
is one of what is after the path's slash, and a component ends there. -/
theorem covers_cons_iff (h : IsPoint s) (hne : s≠[47]) : Covers s (47::path)↔s.drop 1<+:path∧
      (path.length=s.length-1∨path[s.length-1]?=some 47) := by
  have hcons := h.eq_cons
  obtain ⟨tail,htail⟩ : ∃ tail,tail=s.drop 1 := ⟨_,rfl⟩
  rw [←htail] at hcons ⊢
  have hlen : s.length-1=tail.length := by
    rw [hcons,length_cons,Nat.add_sub_cancel]
  have hroot : ¬(s=[47]∧(47::path).head?=some 47) := fun hroot => hne hroot.1
  rw [hlen,Covers,or_iff_right hroot,hcons,cons_append,cons_prefix_cons,List.cons.injEq]
  constructor
  · rintro (⟨_,rfl⟩ | ⟨_,rest,rfl⟩)
    · exact ⟨prefix_refl _,.inl rfl⟩
    · refine ⟨⟨47::rest,?_⟩,.inr ?_⟩
      · rw [append_assoc,singleton_append]
      · rw [append_assoc,List.getElem?_append_right (Nat.le_refl _),Nat.sub_self]
        rfl
  · rintro ⟨⟨rest,rfl⟩,hend | hend⟩
    · rw [length_append] at hend
      have hnil : rest=[] := eq_nil_of_length_eq_zero (by omega)
      rw [hnil,append_nil]
      exact .inl ⟨rfl,rfl⟩
    · rw [List.getElem?_append_right (Nat.le_refl _),Nat.sub_self] at hend
      cases rest with
      | nil => cases hend
      | cons c cs =>
        cases hend
        refine .inr ⟨rfl,cs,?_⟩
        rw [append_assoc,singleton_append]

/-- The walk ends at the first mount point that is a front of the path. -/
inductive Walked (table : List Mount) (path : List UInt8) : Option (Mount×List UInt8)→Prop
  | found {before after : List Mount} {m : Mount} : table=before++m::after →
      Covers m.str path → (∀ m'∈before,¬Covers m'.str path) →
      Walked table path (some (m,remaining m.str path))
  | none : (∀ m∈table,¬Covers m.str path) → Walked table path none

/-- The walk goes on when the first mount point is no front of the path. -/
theorem Walked.cons {table : List Mount} {m : Mount} {r : Option (Mount×List UInt8)}
    (hm : ¬Covers m.str path) (h : Walked table path r) : Walked (m::table) path r := by
  have hfirst {before : List Mount} (hbefore : ∀ m'∈before,¬Covers m'.str path) :
      ∀ m'∈m::before,¬Covers m'.str path := by
    intro m' hm'
    cases mem_cons.mp hm' with
    | inl heq =>
      rw [heq]
      exact hm
    | inr hm' => exact hbefore m' hm'
  cases h with
  | found htable hcovers hbefore =>
    rw [htable]
    exact .found (cons_append ..).symm hcovers (hfirst hbefore)
  | none hall => exact .none (hfirst hall)

/-- The walk finds the first mount point that is a front of the path. -/
theorem lookupMount_walked {table : List Mount} (htable : ∀ m∈table,IsPoint m.str)
    (path : List UInt8) : Walked table (47::path) (lookupMount table path true) := by
  induction table with
  | nil => exact .none fun m hm => nomatch hm
  | cons m rest ih =>
    have hm := htable m mem_cons_self
    have hrest := ih fun m' hm' => htable m' (mem_cons_of_mem _ hm')
    rw [lookupMount]
    cases Decidable.em (m.str=[47]) with
    | inl hroot =>
      rw [if_pos (hm.eq_root_iff.mp hroot),if_pos rfl]
      have hfound := @Walked.found (m::rest) (47::path) [] rest m rfl (.inl ⟨hroot,rfl⟩)
        fun m' hm' => nomatch hm'
      rwa [remaining,if_pos hroot] at hfound
    | inr hroot =>
      have hcovers := @covers_cons_iff m.str path hm hroot
      have hdrop : (m.str.drop 1).length=m.str.length-1 := length_drop
      have hpre := strncmp_iff (fun h => hm.2 (mem_of_mem_drop h)) path (s:=m.str.drop 1)
      rw [hdrop] at hpre
      have hlen : m.str.length=m.str.length-1+1 := by
        have := hm.eq_root_iff.not.mp hroot
        omega
      have hstr := hm.eq_cons
      rw [if_neg (hm.eq_root_iff.not.mp hroot)]
      split
      case isTrue heq =>
        have hfront := hpre.mp heq
        split
        case h_1 hnone =>
          have hle := hfront.length_le
          have hge := List.getElem?_eq_none_iff.mp hnone
          have hfound := @Walked.found (m::rest) (47::path) [] rest m rfl
            (hcovers.mpr ⟨hfront,.inl (by omega)⟩) fun m' hm' => nomatch hm'
          have hsame : m.str=47::path := by
            rw [hstr,hfront.eq_of_length (by omega)]
          rwa [remaining,if_neg hroot,if_pos hsame] at hfound
        case h_2 c hc =>
          split
          case isTrue hslash =>
            rw [hslash] at hc
            have hfound := @Walked.found (m::rest) (47::path) [] rest m rfl
              (hcovers.mpr ⟨hfront,.inr hc⟩) fun m' hm' => nomatch hm'
            have hlt := (List.getElem?_eq_some_iff.mp hc).1
            have hdiff : m.str≠47::path := fun hsame => by
              have hl := congrArg List.length hsame
              rw [length_cons] at hl
              omega
            rw [remaining,if_neg hroot,if_neg hdiff,hlen,drop_succ_cons] at hfound
            exact hfound
          case isFalse hslash =>
            refine hrest.cons fun h => ?_
            have hlt := (List.getElem?_eq_some_iff.mp hc).1
            cases (hcovers.mp h).2 with
            | inl hend => omega
            | inr hend =>
              rw [hc] at hend
              exact hslash (Option.some.inj hend)
      case isFalse hdiff => exact hrest.cons fun h => hdiff (hpre.mpr (hcovers.mp h).1)

/-! ## What every call keeps -/

/-- The mount points are mount points, in an order in which the first that is found is the
longest. -/
structure Inv (table : List Mount) : Prop where
  /-- Every mount point begins with a slash. -/
  points : ∀ m∈table,IsPoint m.str
  /-- No mount point is a front of a later one, except for the root. -/
  ordered : Ordered table

variable {table : List Mount} {new : Mount}

variable {m : Mount} {vfs : State} {answer : Except ε Unit}

/-- The walk gives the file system with the longest mount point. -/
theorem Inv.resolves (h : Inv table) {out : List UInt8}
    (hlookup : Walked table path (some (m,out))) : Resolves table path (.mount m,out) := by
  cases hlookup with
  | @found before after _ htable hcovers hbefore =>
    refine .mount ?_ hcovers fun m' hm' hcovers' => ?_
    · rw [htable]
      exact mem_append_right _ mem_cons_self
    · rw [htable] at hm'
      have hordered := h.ordered
      rw [htable,Ordered,pairwise_append,pairwise_cons] at hordered
      cases mem_append.mp hm' with
      | inl hm' => exact absurd hcovers' (hbefore m' hm')
      | inr hm' =>
        cases mem_cons.mp hm' with
        | inl heq => exact le_of_eq (by rw [heq])
        | inr hm' =>
          refine Nat.le_of_not_lt fun hlt => ?_
          have hpoint := (h.points m' (by
            rw [htable]
            exact mem_append_right _ (mem_cons_of_mem _ hm'))).1
          obtain ⟨hroot,hroot'⟩ := hordered.2.1.1 m' hm' (hcovers.of_lt hcovers' hpoint hlt)
          rw [hroot,hroot'] at hlt
          exact lt_irrefl _ hlt

/-- The lookup of a path that begins with a slash and is not the root. -/
theorem Inv.lookup (h : Inv vfs.mountTable) (habs : path.head?=some 47) (hne : path≠[47]) :
    Resolves vfs.mountTable path (mpVfsLookupPath vfs path) := by
  cases path with
  | nil => cases habs
  | cons c tail =>
    cases habs
    have htail : tail≠[] := fun hnil => hne (by rw [hnil])
    have hwalked := lookupMount_walked h.points tail
    rw [mpVfsLookupPath,if_pos rfl,if_neg htail]
    cases hlookup : lookupMount vfs.mountTable tail true with
    | none =>
      rw [hlookup] at hwalked
      cases hwalked with
      | none hall => exact .none hall
    | some r =>
      rw [hlookup] at hwalked
      exact h.resolves hwalked

theorem mem_insertMount : m∈insertMount table new↔m=new∨m∈table := by
  induction table with
  | nil => exact mem_singleton.trans (or_iff_left not_mem_nil).symm
  | cons x rest ih =>
    rw [insertMount]
    split
    · exact mem_cons
    · rw [mem_cons,ih,mem_cons]
      exact or_left_comm

theorem IsPoint.length_eq_one_iff (h : IsPoint s) : s.length=1↔s=[47] := by
  rw [h.eq_root_iff,h.eq_cons,length_cons]
  omega

theorem Inv.root_of_mem {m' : Mount} {rest : List Mount} (h : Inv (m::rest))
    (hroot : m.str=[47]) (hm' : m'∈rest) : m'.str=[47] := by
  have hpoint := h.points m' (mem_cons_of_mem _ hm')
  exact ((pairwise_cons.mp h.ordered).1 m' hm' (.inl ⟨hroot,hpoint.1⟩)).2

/-- The table after its first entry. -/
theorem Inv.tail {rest : List Mount} (h : Inv (m::rest)) : Inv rest :=
  ⟨fun m' hm' => h.points m' (mem_cons_of_mem _ hm'),(pairwise_cons.mp h.ordered).2⟩

/-- A new file system finds its place, when only the root is a front of its mount point. -/
theorem Inv.insert (h : Inv table) (hpoint : IsPoint new.str)
    (hfree : ∀ m∈table,Covers m.str new.str → m.str=[47]) : Inv (insertMount table new) := by
  refine ⟨fun m hm => ?_,?_⟩
  · cases mem_insertMount.mp hm with
    | inl heq =>
      rw [heq]
      exact hpoint
    | inr hm => exact h.points m hm
  · induction table with
    | nil => exact pairwise_singleton _ _
    | cons m rest ih =>
      have hm := h.points m mem_cons_self
      rw [insertMount]
      split
      case isTrue hlen =>
        have hroot := hm.length_eq_one_iff.mp hlen
        refine pairwise_cons.mpr ⟨fun m' hm' hcovers => ?_,h.ordered⟩
        have hroot' : m'.str=[47] := by
          cases mem_cons.mp hm' with
          | inl heq => rw [heq,hroot]
          | inr hm' => exact h.root_of_mem hroot hm'
        refine ⟨Decidable.byContradiction fun hne => ?_,hroot'⟩
        rw [hroot'] at hcovers
        exact not_covers_root hpoint.1 hne hcovers
      case isFalse hlen =>
        refine pairwise_cons.mpr ⟨fun m' hm' hcovers => ?_,
          ih h.tail fun m' hm' => hfree m' (mem_cons_of_mem _ hm')⟩
        cases mem_insertMount.mp hm' with
        | inl heq =>
          rw [heq] at hcovers
          exact absurd (hm.length_eq_one_iff.mpr (hfree m mem_cons_self hcovers)) hlen
        | inr hm' => exact (pairwise_cons.mp h.ordered).1 m' hm' hcovers

/-- Only the root is a front of a mount point that is not in use. -/
theorem Inv.free (h : Inv vfs.mountTable) (hs : IsPoint s)
    (hfree : inUse (mpVfsLookupPath vfs s).1 s.length=false) :
    ∀ m∈vfs.mountTable,Covers m.str s → m.str=[47] := by
  intro m hm hcovers
  cases Decidable.em (s=[47]) with
  | inl hroot =>
    rw [hroot] at hcovers
    exact Decidable.byContradiction fun hne => not_covers_root (h.points m hm).1 hne hcovers
  | inr hne =>
    have hlookup := h.lookup hs.1 hne
    cases hresult : mpVfsLookupPath vfs s with
    | mk found out =>
      rw [hresult] at hlookup hfree
      cases hlookup with
      | none hall => exact absurd hcovers (hall m hm)
      | @mount m' hm' hcovers' hlongest =>
        rw [inUse,Bool.not_eq_false',Bool.and_eq_true,decide_eq_true_iff,
          decide_eq_true_iff] at hfree
        have hle := hlongest m hm hcovers
        have hpoint := h.points m hm
        refine hpoint.length_eq_one_iff.mp ?_
        have hcons := congrArg List.length hpoint.eq_cons
        rw [length_cons] at hcons
        omega

/-- The call mounts at a path that begins with a slash, or does not mount. -/
def AtPoint : Op ε→Prop
  | .mount (.str s) _ _ => s.head?=some 47
  | .mount (.bytes s) _ _ => s.head?=some 47
  | _ => True

/-- A mount that does not raise has inserted a new file system into the table. -/
theorem mpVfsMount_cases {vfs' : State} {mnt : Obj} {made : Except ε ℕ}
    {out : Except (Raised ε) Unit} (h : mpVfsMount vfs mnt made answer=.ok (vfs',out)) :
    (∃ e,out=.error e∧vfs'.mountTable=vfs.mountTable∧vfs'.vfsCur=vfs.vfsCur)∨
    ∃ s obj,@mpObjStrGetData ε mnt=.ok s∧IsText s∧out=.ok ()∧
      inUse (mpVfsLookupPath vfs s).1 s.length=false∧vfs'.vfsCur=vfs.vfsCur∧
      vfs'.mountTable=insertMount vfs.mountTable ⟨vfs.made,s,obj⟩ := by
  rw [mpVfsMount] at h
  split at h
  case h_1 e hdata =>
    cases h
    exact .inl ⟨_,rfl,rfl,rfl⟩
  case h_2 s hdata =>
    split at h
    case h_1 e =>
      cases h
      exact .inl ⟨_,rfl,rfl,rfl⟩
    case h_2 obj =>
      dsimp only at h
      split at h
      case h_1 e hproxy =>
        cases h
        exact .inl ⟨_,rfl,rfl,rfl⟩
      case h_2 hproxy =>
        split at h
        case isTrue huse =>
          cases h
          exact .inl ⟨_,rfl,rfl,rfl⟩
        case isFalse huse =>
          split at h
          case isTrue htext =>
            cases h
            have hcut : s.takeWhile (·≠0)=s := by
              refine takeWhile_eq_self_iff.mpr fun c hc => decide_eq_true fun h0 => ?_
              exact htext.2 (by rwa [h0] at hc)
            rw [hcut] at huse
            exact .inr ⟨s,obj,hdata,htext,rfl,Bool.eq_false_iff.mpr huse,rfl,rfl⟩
          case isFalse htext => cases h

/-- A path that is unmounted stays inside the comparisons, and is gone from the table. -/
theorem mpVfsUmount_cases {vfs' : State} {mnt : Obj}
    {out : Except (Raised ε) Unit} (h : mpVfsUmount vfs mnt answer=.ok (vfs',out)) :
    vfs.mountTable.find? (isMount mnt)=none∧vfs'=vfs∧out=.error (.osError mpEINVAL)∨
    ∃ m before after,isMount mnt m=true∧vfs.mountTable=before++m::after∧
      (∀ m'∈before,isMount mnt m'=false)∧vfs'.mountTable=before++after∧
      vfs'.vfsCur=(if vfs.vfsCur=.mount m then .root else vfs.vfsCur)∧
      out=answer.mapError .method := by
  rw [mpVfsUmount] at h
  split at h
  case isTrue => cases h
  case isFalse =>
    split at h
    case h_1 hnone =>
      cases h
      exact .inl ⟨hnone,rfl,rfl⟩
    case h_2 m hfind =>
      obtain ⟨hm,before,after,htable,hbefore⟩ := List.find?_eq_some_iff_append.mp hfind
      have hnot : ∀ m'∈before,isMount mnt m'=false := fun m' hm' => by
        have := hbefore m' hm'
        rwa [Bool.not_eq_true'] at this
      have herase : vfs.mountTable.eraseP (isMount mnt)=before++after := by
        rw [htable,eraseP_append_right _ fun m' hm' => by rw [hnot m' hm']; decide,
          eraseP_cons_of_pos hm]
      cases h
      refine .inr ⟨m,before,after,hm,htable,hnot,?_,?_,rfl⟩
      · rw [herase]
        split <;> rfl
      · dsimp only
        split <;> rfl

/-- Changing the directory does not touch the table. -/
theorem mountTable_mpVfsChdir (vfs : State) (path : Obj) (answer : Except ε Unit) :
    (mpVfsChdir vfs path answer).1.mountTable=vfs.mountTable := by
  rw [mpVfsChdir]
  split
  · rfl
  · dsimp only
    split
    · split <;> rfl
    · rfl

/-- Every call keeps the table in order. -/
theorem Inv.step {vfs vfs' : State} {op : Op ε} {out : Except (Raised ε) Unit}
    (h : Inv vfs.mountTable) (hop : AtPoint op) (hstep : step vfs op=.ok (vfs',out)) :
    Inv vfs'.mountTable := by
  cases op with
  | mount mnt made answer =>
    rcases mpVfsMount_cases hstep with ⟨_,_,htable,_⟩ | ⟨s,obj,hdata,htext,_,hfree,_,htable⟩
    · rwa [htable]
    · have hpoint : IsPoint s := by
        refine ⟨?_,htext.2⟩
        cases mnt with
        | str s' =>
          cases hdata
          exact hop
        | bytes s' =>
          cases hdata
          exact hop
        | object obj => cases hdata
      rw [htable]
      exact h.insert hpoint (h.free hpoint hfree)
  | umount mnt answer =>
    rcases mpVfsUmount_cases hstep with ⟨_,rfl,_⟩ | ⟨m,before,after,_,htable,_,htable',_⟩
    · exact h
    · have hsub : (before++after).Sublist vfs.mountTable := by
        rw [htable]
        exact (sublist_cons_self m after).append_left before
      rw [htable']
      exact ⟨fun m' hm' => h.points m' (hsub.subset hm'),h.ordered.sublist hsub⟩
  | chdir path answer =>
    have htable := mountTable_mpVfsChdir vfs path answer
    rw [Except.ok.inj hstep] at htable
    exact Eq.mpr (congrArg Inv htable) h

/-- The table is in order after every run. -/
theorem Inv.run {ops : List (Op ε)} : ∀ {vfs vfs' : State} {outs : List (Except (Raised ε) Unit)},
    Inv vfs.mountTable → (∀ op∈ops,AtPoint op) → run Vfs.step vfs ops=.ok (vfs',outs) →
    Inv vfs'.mountTable := by
  induction ops with
  | nil =>
    intro vfs vfs' outs h _ hrun
    cases hrun
    exact h
  | cons op ops ih =>
    intro vfs vfs' outs h hops hrun
    obtain ⟨vfs₁,out,outs',hstep,hrest,rfl⟩ := run_cons_eq_ok.mp hrun
    exact ih (h.step (hops op mem_cons_self) hstep)
      (fun op' hop' => hops op' (mem_cons_of_mem _ hop')) hrest

/-- Unmounting by a path takes away the entry with that mount point and no other one, when
there is one. -/
def Unmounts (vfs : State) (s : List UInt8)
    (r : Except Fault (State×Except (Raised ε) Unit)) : Prop :=
  (∀ m∈vfs.mountTable,m.str≠s)∧r=.ok (vfs,.error (.osError mpEINVAL))∨
  ∃ before m after vfs' out,vfs.mountTable=before++m::after∧m.str=s∧
    (∀ m'∈before,m'.str≠s)∧(s≠[47] → ∀ m'∈after,m'.str≠s)∧
    r=.ok (vfs',out)∧vfs'.mountTable=before++after

/-- Unmounting by a path without null bytes. -/
theorem Inv.unmounts (h : Inv vfs.mountTable) (hs : 0∉s)
    (answer : Except ε Unit) : Unmounts vfs s (mpVfsUmount vfs (.str s) answer) := by
  cases hresult : mpVfsUmount vfs (.str s) answer with
  | error e =>
    have hover : ¬Overruns (.str s) := hs
    rw [mpVfsUmount,if_neg hover] at hresult
    split at hresult <;> cases hresult
  | ok r =>
    obtain ⟨vfs',out⟩ := r
    rcases mpVfsUmount_cases hresult with
      ⟨hnone,rfl,rfl⟩ | ⟨m,before,after,hm,htable,hbefore,htable',_⟩
    · refine .inl ⟨fun m hm heq => ?_,rfl⟩
      exact List.find?_eq_none.mp hnone m hm (decide_eq_true heq)
    · have hstr : m.str=s := of_decide_eq_true hm
      refine .inr ⟨before,m,after,vfs',out,htable,hstr,
        fun m' hm' => of_decide_eq_false (hbefore m' hm'),fun hne m' hm' heq => ?_,rfl,htable'⟩
      have hordered := h.ordered
      rw [htable,Ordered,pairwise_append,pairwise_cons] at hordered
      have hroot := hordered.2.1.1 m' hm' (.inr (.inl (by rw [hstr,heq])))
      rw [hstr] at hroot
      exact hne hroot.1

/-- After every run of calls that mount at paths beginning with a slash, no two file
systems have the same mount point other than the root, those at the root come after all
others, every path that begins with a slash and is not the root itself is resolved to the
file system with the longest mount point, the root is the virtual directory, and
unmounting by a path takes away exactly the entry with that mount point. -/
theorem run_resolves (ops : List (Op ε)) (vfs : State) (outs : List (Except (Raised ε) Unit))
    (hops : ∀ op∈ops,AtPoint op) (hrun : run step initial ops=.ok (vfs,outs)) :
    (vfs.mountTable.Pairwise fun m m' => m.str=m'.str → m.str=[47])∧
    (vfs.mountTable.Pairwise fun m m' => m.str=[47] → m'.str=[47])∧
    (∀ path,path.head?=some 47 → path≠[47] →
      Resolves vfs.mountTable path (mpVfsLookupPath vfs path))∧
    mpVfsLookupPath vfs [47]=(.root,[])∧
    ∀ s (answer : Except ε Unit),0∉s → Unmounts vfs s (mpVfsUmount vfs (.str s) answer) := by
  have hinitial : Inv initial.mountTable := ⟨fun m hm => (nomatch hm),List.Pairwise.nil⟩
  have hinv := hinitial.run hops hrun
  refine ⟨?_,?_,fun path => hinv.lookup,rfl,fun s answer hs => hinv.unmounts hs answer⟩
  · exact hinv.ordered.imp fun hordered heq => (hordered (.inr (.inl heq))).1
  · refine List.Pairwise.imp_of_mem (fun hm hm' hordered hroot => ?_) hinv.ordered
    exact (hordered (.inl ⟨hroot,(hinv.points _ hm').1⟩)).2

/-- A directory below another one is mounted first, then that one and the root. -/
theorem run_resolves_nested : ∃ vfs outs,
    run step initial [(.mount (.str [47,97,47,98]) (.ok 0) (.ok ()) : Op Empty),
      .mount (.str [47]) (.ok 1) (.ok ()),.mount (.str [47,97]) (.ok 2) (.ok ())]=.ok (vfs,outs)∧
    vfs.mountTable.map (·.obj)=[0,2,1]∧
    Resolves vfs.mountTable [47,97,47,99] (mpVfsLookupPath vfs [47,97,47,99]) := by
  have hops : ∀ op∈[(.mount (.str [47,97,47,98]) (.ok 0) (.ok ()) : Op Empty),
      .mount (.str [47]) (.ok 1) (.ok ()),.mount (.str [47,97]) (.ok 2) (.ok ())],AtPoint op :=
    List.forall_mem_cons.mpr ⟨rfl,List.forall_mem_cons.mpr ⟨rfl,List.forall_mem_singleton.mpr rfl⟩⟩
  exact ⟨_,_,rfl,rfl,(run_resolves _ _ _ hops rfl).2.2.1 _ rfl (by decide)⟩

/-- A file system that is mounted at the root is not what the path of the root leads to. -/
theorem root_not_resolves : ∃ vfs,
    run step initial [(.mount (.str [47]) (.ok 0) (.ok ()) : Op Empty)]=.ok (vfs,[.ok ()])∧
    vfs.mountTable.map (·.str)=[[47]]∧
    ¬Resolves vfs.mountTable [47] (mpVfsLookupPath vfs [47]) := by
  refine ⟨_,rfl,rfl,fun h => ?_⟩
  cases h

/-! ## Calls that raise -/

/-- A call that raises leaves the table and the current file system as they were. -/
def Atomic (vfs : State) (op : Op ε) : Prop :=
  ∀ vfs' e,step vfs op=.ok (vfs',.error e) → vfs'.mountTable=vfs.mountTable∧vfs'.vfsCur=vfs.vfsCur

/-- The file system that `chdir` tells, when there is one. -/
def told (vfs : State) (path : List UInt8) : Found :=
  match (mpVfsLookupPath vfs path).1 with
  | .root =>
    match vfs.mountTable.find? (fun m => m.str.length=1) with
    | none => .root
    | some m => .mount m
  | found => found

/-- Nothing in the table is unmounted, or the method of what is unmounted does not raise.
The path of a new directory lies in the current file system, or leads somewhere, where the
method of a file system that is told does not raise. -/
def Settled (vfs : State) : Op ε→Prop
  | .mount _ _ _ => True
  | .umount mnt answer => Overruns mnt∨(∀ m∈vfs.mountTable,isMount mnt m=false)∨answer=.ok ()
  | .chdir path answer =>
    match @mpObjStrGetStr ε path with
    | .error _ => True
    | .ok path => (mpVfsLookupPath vfs path).1=vfs.vfsCur∨told vfs path=.root∨
        told vfs path≠.none∧answer=.ok ()

theorem mapError_eq_error {e : Raised ε}
    (h : answer.mapError Raised.method=.error e) : answer≠.ok () := by
  intro hok
  rw [hok] at h
  cases h

theorem exists_mapError (h : answer≠.ok ()) : ∃ e,answer.mapError Raised.method=.error e := by
  cases answer with
  | error e => exact ⟨_,rfl⟩
  | ok u => exact absurd rfl h

/-- What changing the directory does: it tells the file system that is found, or the one at
the root. -/
theorem mpVfsChdir_eq (vfs : State) {o : Obj} (answer : Except ε Unit)
    (hpath : @mpObjStrGetStr ε o=.ok path) : mpVfsChdir vfs o answer=
      ({vfs with vfsCur := (mpVfsLookupPath vfs path).1},
        match told vfs path with
        | .root => .ok ()
        | found => mpVfsProxyCall found answer) := by
  rw [mpVfsChdir,hpath,told]
  dsimp only
  cases hfound : (mpVfsLookupPath vfs path).1 with
  | root =>
    rw [if_pos rfl]
    cases vfs.mountTable.find? (fun m => m.str.length=1) with
    | none => rfl
    | some m => rfl
  | none => rfl
  | mount m => rfl

/-- A call leaves everything as it was when it raises, for mounting always, and else only
under its condition. -/
theorem atomic_iff (vfs : State) (op : Op ε) : Atomic vfs op↔Settled vfs op := by
  cases op with
  | mount mnt made answer =>
    refine ⟨fun _ => trivial,fun _ vfs' e hstep => ?_⟩
    rcases mpVfsMount_cases hstep with ⟨_,_,htable,hcur⟩ | ⟨_,_,_,_,hout,_⟩
    · exact ⟨htable,hcur⟩
    · cases hout
  | umount mnt answer =>
    constructor
    · intro h
      cases Decidable.em (Overruns mnt) with
      | inl hover => exact .inl hover
      | inr hover =>
        refine .inr ?_
        cases hresult : mpVfsUmount vfs mnt answer with
        | error e =>
          rw [mpVfsUmount,if_neg hover] at hresult
          split at hresult <;> cases hresult
        | ok r =>
          obtain ⟨vfs',out⟩ := r
          rcases mpVfsUmount_cases hresult with
            ⟨hnone,_,_⟩ | ⟨m,before,after,_,htable,_,htable',_,hout⟩
          · exact .inl fun m hm => Bool.eq_false_iff.mpr (List.find?_eq_none.mp hnone m hm)
          · refine .inr (Classical.byContradiction fun hraise => ?_)
            obtain ⟨e,he⟩ := exists_mapError hraise
            rw [he] at hout
            rw [hout] at hresult
            have hlen := congrArg List.length (h vfs' e hresult).1
            rw [htable,htable',List.length_append,List.length_append,List.length_cons] at hlen
            omega
    · intro h vfs' e hstep
      rcases mpVfsUmount_cases hstep with
        ⟨_,rfl,_⟩ | ⟨m,before,after,hm,htable,_,_,_,hout⟩
      · exact ⟨rfl,rfl⟩
      · rcases h with hover | hall | hok
        · have hfault : mpVfsUmount vfs mnt answer=.error .outOfBounds := by
            rw [mpVfsUmount,if_pos hover]
          have hstep' : mpVfsUmount vfs mnt answer=.ok (vfs',.error e) := hstep
          rw [hfault] at hstep'
          cases hstep'
        · have hnot := hall m (by
            rw [htable]
            exact List.mem_append_right _ List.mem_cons_self)
          rw [hm] at hnot
          cases hnot
        · exact absurd hok (mapError_eq_error hout.symm)
  | chdir o answer =>
    rw [Settled]
    cases hpath : @mpObjStrGetStr ε o with
    | error e =>
      refine ⟨fun _ => trivial,fun _ vfs' e' hstep => ?_⟩
      rw [step,mpVfsChdir,hpath] at hstep
      cases hstep
      exact ⟨rfl,rfl⟩
    | ok path =>
      rw [Atomic]
      simp only [step,mpVfsChdir_eq vfs answer hpath]
      cases htold : told vfs path with
      | root =>
        refine ⟨fun _ => .inr (.inl rfl),fun _ vfs' e hstep => ?_⟩
        cases hstep
      | none =>
        constructor
        · intro h
          exact .inl (h _ _ rfl).2
        · rintro (hcur | hroot | ⟨hnone,_⟩) vfs' e hstep
          · cases hstep
            exact ⟨rfl,hcur⟩
          · cases hroot
          · exact absurd rfl hnone
      | mount m =>
        constructor
        · intro h
          cases answer with
          | error e => exact .inl (h _ _ rfl).2
          | ok u => exact .inr (.inr ⟨Found.noConfusion,rfl⟩)
        · rintro (hcur | hroot | ⟨_,hok⟩) vfs' e hstep
          · cases answer with
            | error e =>
              cases hstep
              exact ⟨rfl,hcur⟩
            | ok u => cases hstep
          · cases hroot
          · rw [hok] at hstep
            cases hstep

/-- A directory that is not found while the current one is the root. -/
theorem not_atomic_chdir : ¬Atomic initial (.chdir (.str [47,97]) (.ok ()) : Op Empty) := by
  intro h
  have hcur := (h _ _ rfl).2
  cases hcur

end MicroPython.Vfs
