import Mathlib.Data.List.Range
import Mathlib.Data.List.TakeWhile
import MicroPython.IdOrder

/-!
# Numbers of local variables

After the scope pass the identifiers of each scope are numbered: first the free variables in the
order in which the parent closes over them, then the parameters with the starred one after the
others, then locals and cells. The prelude of the bytecode tells the call how many arguments
there are and which slots to box, all of it in single bytes. The numbers fit what the call does
just when the arguments can be counted in a byte and no cell among them is behind slot 254.
-/

namespace MicroPython.ScopeLayout

open Nat List

open ScopePass (IdKind ScopeKind)
open IdTables IdOrder

/-! ## Numbering -/

/-- The loop at the start of `scope_compute_things`, which exchanges the starred parameter and
the last one. -/
def swapStar (ids : List IdInfo) : ℕ→Option ℕ→List IdInfo
  | 0,_ => ids
  | i+1,idParam =>
    match ids[i]? with
    | none => ids
    | some id =>
      if id.flags=.starParam then
        match idParam.bind fun k => (ids[k]?).map (k,·) with
        | none => ids
        | some (k,param) => (ids.set k id).set i param
      else swapStar ids i (if idParam=none∧id.flags=.param then some i else idParam)

/-- The identifiers when the starred parameter is behind the others. -/
def moveStar (t : Table) : List IdInfo :=
  if t.varargs=true then swapStar t.ids t.ids.length none else t.ids

/-- Functions turn implicit globals into explicit globals. -/
def explicitGlobal (kind : ScopeKind) (id : IdInfo) : IdInfo :=
  if kind.isFuncLike=true∧id.kind=.globalImplicit then {id with kind := .globalExplicit} else id

/-- A fast local. Parameters count even if they are cells. -/
def isFast (kind : ScopeKind) (id : IdInfo) : Bool :=
  ¬(kind=.classDef∧id.qst="__class__")∧(id.kind=.local∨id.flags≠.none)

/-- A cell that is no parameter. -/
def isOwnCell (id : IdInfo) : Bool := id.kind=.cell∧id.flags=.none

/-- A free variable with a name. -/
def isFreeNamed (x : String) (id : IdInfo) : Bool := id.kind=.free∧x=id.qst

/-- What the parent can pass to a closure. -/
def isClosed (id : IdInfo) : Bool := id.kind=.cell∨id.kind=.free

/-- A loop that numbers some identifiers from a number on. -/
def numberIds (which : IdInfo→Bool) : ℕ→List IdInfo→List IdInfo×ℕ
  | n,[] => ([],n)
  | n,id::ids =>
    if which id=true then
      let (rest,m) := numberIds which (n+1) ids
      ({id with localNum := n}::rest,m)
    else
      let (rest,m) := numberIds which n ids
      (id::rest,m)

/-- The loop over the identifiers of the parent, which numbers the free variables. -/
def numberFrees : List IdInfo→ℕ→List IdInfo→List IdInfo×ℕ
  | [],n,ids => (ids,n)
  | id::parent,n,ids =>
    if isClosed id=true then
      let (ids,n) := numberIds (isFreeNamed id.qst) n ids
      numberFrees parent n ids
    else numberFrees parent n ids

/-- Other identifiers come after the free variables. -/
def shift (numFree : ℕ) (id : IdInfo) : IdInfo :=
  if id.kind≠.free∨id.flags≠.none then {id with localNum := id.localNum+numFree} else id

/-- `scope_compute_things` -/
def scopeComputeThings (kind : ScopeKind) (parent : Option (List IdInfo)) (t : Table) : Table :=
  let (ids,numLocals) := numberIds (isFast kind) 0 ((moveStar t).map (explicitGlobal kind))
  let (ids,numLocals) := numberIds isOwnCell numLocals ids
  match parent with
  | none => {t with
      ids := ids
      numLocals := numLocals}
  | some parent =>
    let (ids,numFree) := numberFrees parent 0 ids
    if 0 < numFree then {t with
      ids := ids.map (shift numFree)
      numPosArgs := t.numPosArgs+numFree
      numLocals := numLocals+numFree}
    else {t with
      ids := ids
      numLocals := numLocals}

/-- The identifiers of the parent scope. -/
def parentIds (state : State) (scope : Scope) : Option (List IdInfo) :=
  scope.ancestors.head?.map fun p => (state.table p).ids

/-- One turn of the loop of `mp_compile_to_raw_code` after the pass. -/
def computeOne (state : State) (i : ℕ) : State :=
  match state.scopes[i]? with
  | none => state
  | some scope => state.setTable i
      (scopeComputeThings scope.kind (parentIds state scope) (state.table i))

/-- The loop over the first scopes. -/
def computeThings (state : State) : ℕ→State
  | 0 => state
  | i+1 => computeOne (computeThings state i) i

/-! ## Those who use the numbers -/

/-- What `close_over_variables_etc` pushes for a scope, when the parent is no module. -/
def closeOver (parent ids : List IdInfo) : List String :=
  (parent.filter isClosed).flatMap fun id => (ids.filter (isFreeNamed id.qst)).map fun _ => id.qst

/-- What `close_over_variables_etc` pushes for a scope. -/
def pushed (state : State) (scope : Scope) (ids : List IdInfo) : List String :=
  match scope.ancestors with
  | [] => []
  | p::_ =>
    if (state.scopes[p]?).map Scope.kind=some .module then []
    else closeOver (state.table p).ids ids

/-- `n_pos_args`, which the prelude has in a byte. -/
def nPosArgs (t : Table) : ℕ := t.numPosArgs%256

/-- `n_kwonly_args`, which the prelude has in a byte. -/
def nKwonlyArgs (t : Table) : ℕ := t.numKwonlyArgs%256

/-- `var_pos_kw_args`, where `mp_setup_code_state` stores a tuple first if there is one. -/
def varPosKwArgs (t : Table) : ℕ := nPosArgs t+nKwonlyArgs t

/-- The bytes of the prelude that name the cells. -/
def cellBytes (t : Table) : List ℕ :=
  ((t.ids.filter fun id => id.kind=.cell).map fun id => id.localNum%256)++[255]

/-- The slots that `mp_setup_code_state` boxes, up to the sentinel. -/
def boxed (t : Table) : List ℕ := (cellBytes t).takeWhile (·≠255)

/-- The number of a name. -/
def slot (t : Table) (x : String) : Option ℕ := (scopeFind t.ids x).map IdInfo.localNum

/-- A variable that has a number. -/
def isVariable (id : IdInfo) : Bool := id.kind=.local∨isClosed id=true

/-- The numbers of a function are those that its calls rely on. -/
structure Layout (sig : Signature) (closed : List String) (t : Table) : Prop where
  /-- Every number below the number of locals belongs to one variable. -/
  numbers : ((t.ids.filter isVariable).map IdInfo.localNum).Perm (List.range t.numLocals)
  /-- Free variables come first, as they are pushed. -/
  frees : ∀ (k : ℕ) (x : String),closed[k]?=some x↔∃ id∈t.ids,id.qst=x∧id.kind=.free∧id.localNum=k
  /-- They and the positional parameters are all that is counted. -/
  nPosArgs : nPosArgs t=closed.length+sig.pos.length
  /-- Positional parameters come next. -/
  pos : ∀ (k : ℕ) (x : String),sig.pos[k]?=some x → slot t x=some (closed.length+k)
  /-- The keyword-only parameters are counted. -/
  nKwonlyArgs : nKwonlyArgs t=sig.kwonly.length
  /-- They come after the positional ones. -/
  kwonly : ∀ x∈sig.kwonly,∃ k < sig.kwonly.length,slot t x=some (ScopeLayout.nPosArgs t+k)
  /-- The tuple of further arguments follows. -/
  star : ∀ x∈sig.star,slot t x=some (varPosKwArgs t)
  /-- The dictionary of further keywords is last. -/
  dblStar : ∀ x∈sig.dblStar,slot t x=some (varPosKwArgs t+if t.varargs=true then 1 else 0)
  others : ∀ id∈t.ids,id.kind=.local∨id.kind=.cell → id.qst∉sig.entries.map Prod.fst →
    varPosKwArgs t+sig.star.toList.length+sig.dblStar.toList.length ≤ id.localNum
  boxed : ∀ id∈t.ids,id.kind=.cell → id.flags≠.none → id.localNum∈boxed t

/-- Keyword-only parameters in the order of their slots: the last one comes first if there is a
starred one. -/
def kwonlySlots (sig : Signature) : List String :=
  match sig.star with
  | none => sig.kwonly
  | some _ => sig.kwonly.getLast?.toList++sig.kwonly.dropLast

/-- Parameters in the order of their slots. -/
def slots (sig : Signature) : List String :=
  sig.pos++(kwonlySlots sig++(sig.star.toList++sig.dblStar.toList))

/-- The free variables of a scope. -/
def freeCount (t : Table) : ℕ := (t.ids.filter fun id => id.kind=.free).length

/-- Arguments are counted in a byte, and no parameter behind slot 254 is a cell. -/
structure Fits (sig : Signature) (t : Table) : Prop where
  pos : freeCount t+sig.pos.length < 256
  /-- Keyword-only parameters. -/
  kwonly : sig.kwonly.length < 256
  cells : ∀ (k : ℕ) (x : String),(slots sig)[k]?=some x →
    (scopeFind t.ids x).map IdInfo.kind=some .cell → freeCount t+k < 255

variable {ids ids' parent : List IdInfo} {t : Table} {state : State} {n m : ℕ}

/-! ## Numbers as functions of names -/

/-- An identifier gets a number. -/
def withNum (num : IdInfo→ℕ) (id : IdInfo) : IdInfo := {id with localNum := num id}

/-- The names of some identifiers. -/
def namesOf (which : IdInfo→Bool) (ids : List IdInfo) : List String := names (ids.filter which)

/-- Whether an identifier is meant does not depend on its number. -/
def Stable (which : IdInfo→Bool) : Prop := ∀ id n,which {id with localNum := n}=which id

@[simp]
theorem names_map_withNum (num : IdInfo→ℕ) (ids : List IdInfo) :
    names (ids.map (withNum num))=names ids := by
  simp [names,withNum]

/-- So do the names of some identifiers. -/
theorem namesOf_map {which : IdInfo→Bool} (h : Stable which) (num : IdInfo→ℕ)
    (ids : List IdInfo) : namesOf which (ids.map (withNum num))=namesOf which ids := by
  have hsame : which∘withNum num=which := funext fun id => h id _
  rw [namesOf,filter_map,hsame,names_map_withNum,namesOf]

variable {x : String} {xs : List String} {scope : Scope} {kind : ScopeKind} {id : IdInfo}

/-- A name comes one later behind another. -/
theorem idxOf_behind {y : String} (h : x≠y) : (x::xs).idxOf y=xs.idxOf y+1 := by
  rw [idxOf_cons_ne xs h]

/-- The loop gives each identifier the position of its name. -/
theorem numberIds_eq (which : IdInfo→Bool) (n : ℕ) (hnodup : (names ids).Nodup) :
    numberIds which n ids=(ids.map (withNum fun id =>
      if which id=true then n+(namesOf which ids).idxOf id.qst else id.localNum),
        n+(namesOf which ids).length) := by
  induction ids generalizing n with
  | nil => rfl
  | cons id ids ih =>
    obtain ⟨hfirst,hrest⟩ := nodup_cons.mp hnodup
    have hother : ∀ id'∈ids,id.qst≠id'.qst := fun id' hid' hsame =>
      hfirst (hsame ▸ mem_map_of_mem hid')
    rw [numberIds]
    split
    case isTrue hwhich =>
      have hnames : namesOf which (id::ids)=id.qst::namesOf which ids := by
        simp [namesOf,hwhich,names]
      rw [ih (n+1) hrest,hnames]
      refine Prod.ext ?_ ?_
      · rw [map_cons]
        refine congrArg₂ List.cons ?_ (map_congr_left fun id' hid' => ?_)
        · simp [withNum,hwhich]
        · rw [withNum,withNum,idxOf_behind (hother id' hid'),Nat.add_right_comm,Nat.add_assoc n]
      · rw [length_cons,Nat.add_right_comm,Nat.add_assoc]
    case isFalse hwhich =>
      have hnames : namesOf which (id::ids)=namesOf which ids := by
        simp [namesOf,hwhich]
      rw [ih n hrest,hnames]
      refine Prod.ext ?_ rfl
      rw [map_cons]
      refine congrArg₂ List.cons ?_ rfl
      simp [withNum,hwhich]

/-- Two numberings one after the other. -/
theorem map_withNum_map (num num' : IdInfo→ℕ) (ids : List IdInfo) :
    (ids.map (withNum num)).map (withNum num')=
      ids.map (withNum fun id => num' (withNum num id)) := by
  simp [withNum]

theorem stable_isFreeNamed (x : String) : Stable (isFreeNamed x) := fun _ _ => rfl

/-- What is pushed does not depend on numbers. -/
theorem closeOver_map (num : IdInfo→ℕ) (parent ids : List IdInfo) :
    closeOver parent (ids.map (withNum num))=closeOver parent ids := by
  refine flatMap_congr fun id _ => ?_
  have hsame : isFreeNamed id.qst∘withNum num=isFreeNamed id.qst := rfl
  rw [filter_map,hsame,map_map]
  rfl

/-- At most one free variable has a name. -/
theorem filter_isFreeNamed (x : String) (hnodup : (names ids).Nodup) :
    ids.filter (isFreeNamed x)=[]∨∃ id,ids.filter (isFreeNamed x)=[id]∧id.qst=x∧id.kind=.free := by
  have hfilter : (namesOf (isFreeNamed x) ids).Nodup :=
    hnodup.sublist (filter_sublist.map _)
  cases hids : ids.filter (isFreeNamed x) with
  | nil => exact .inl rfl
  | cons id rest =>
    have hmem : ∀ id'∈ids.filter (isFreeNamed x),id'.kind=.free∧x=id'.qst := by
      intro id' hid'
      simpa [isFreeNamed] using (mem_filter.mp hid').2
    rw [hids] at hmem
    have hid := hmem id mem_cons_self
    cases rest with
    | nil => exact .inr ⟨id,rfl,hid.2.symm,hid.1⟩
    | cons id' rest =>
      have hid' := hmem id' (mem_cons_of_mem _ mem_cons_self)
      simp [namesOf,hids,names,←hid.2,←hid'.2] at hfilter

/-- Names that are pushed are names of the parent. -/
theorem mem_closeOver : x∈closeOver parent ids↔
    (∃ id∈parent,isClosed id=true∧id.qst=x)∧∃ id∈ids,id.kind=.free∧id.qst=x := by
  simp only [closeOver,mem_flatMap,mem_map,mem_filter]
  constructor
  · rintro ⟨id,⟨hid,hclosed⟩,id',⟨hid',hfree⟩,rfl⟩
    have hfree : id'.kind=.free∧id.qst=id'.qst := by simpa [isFreeNamed] using hfree
    exact ⟨⟨id,hid,hclosed,rfl⟩,id',hid',hfree.1,hfree.2.symm⟩
  · rintro ⟨⟨id,hid,hclosed,rfl⟩,id',hid',hfree,hname⟩
    refine ⟨id,⟨hid,hclosed⟩,id',⟨hid',?_⟩,rfl⟩
    simp [isFreeNamed,hfree,hname]

/-- The loop gives each free variable the position at which it is pushed. -/
theorem numberFrees_eq (n : ℕ) (hparent : (names parent).Nodup) (hnodup : (names ids).Nodup) :
    numberFrees parent n ids=(ids.map (withNum fun id =>
      if id.kind=.free∧id.qst∈closeOver parent ids then n+(closeOver parent ids).idxOf id.qst
      else id.localNum),n+(closeOver parent ids).length) := by
  induction parent generalizing n ids with
  | nil =>
    have hsame : withNum (fun id => id.localNum)=id := rfl
    simp [numberFrees,closeOver,hsame]
  | cons id parent ih =>
    obtain ⟨hfirst,hrest⟩ := nodup_cons.mp hparent
    rw [numberFrees]
    split
    case isFalse hclosed =>
      have hsame : closeOver (id::parent) ids=closeOver parent ids := by
        simp [closeOver,hclosed]
      rw [ih n hrest hnodup,hsame]
    case isTrue hclosed =>
      have hnot : id.qst∉closeOver parent ids := by
        rw [mem_closeOver]
        rintro ⟨⟨id',hid',_,hname⟩,_⟩
        exact hfirst (hname ▸ mem_map_of_mem hid')
      have hpushed : closeOver (id::parent) ids=
          (ids.filter (isFreeNamed id.qst)).map (fun _ => id.qst)++closeOver parent ids := by
        simp [closeOver,hclosed]
      rw [numberIds_eq _ n hnodup]
      dsimp only
      rw [ih _ hrest ((names_map_withNum _ ids).symm ▸ hnodup),closeOver_map,map_withNum_map,
        hpushed]
      rcases filter_isFreeNamed id.qst hnodup with hnone | ⟨free,hone,hname,_⟩
      · have hno : ∀ id'∈ids,isFreeNamed id.qst id'=false := by
          simpa using hnone
        have hnames : namesOf (isFreeNamed id.qst) ids=[] := by
          simp [namesOf,hnone,names]
        rw [hnone,hnames]
        refine Prod.ext (map_congr_left fun id' hid' => ?_) rfl
        simp [withNum,hno id' hid']
      · have hnames : namesOf (isFreeNamed id.qst) ids=[id.qst] := by
          simp [namesOf,hone,names,hname]
        rw [hone,hnames]
        refine Prod.ext (map_congr_left fun id' hid' => ?_) ?_
        · simp only [withNum,map_cons,map_nil,singleton_append]
          by_cases hkind : id'.kind=.free
          · by_cases hid : id.qst=id'.qst
            · simp [isFreeNamed,hkind,←hid,hnot]
            · have hfree : isFreeNamed id.qst id'=false := by simp [isFreeNamed,hid]
              have hplus : ∀ k,n+1+k=n+(k+1) := fun k => by omega
              simp [hkind,hfree,Ne.symm hid,idxOf_behind hid,hplus]
          · have hfree : isFreeNamed id.qst id'=false := by simp [isFreeNamed,hkind]
            simp [hkind,hfree]
        · exact (Nat.add_assoc n 1 _).trans (by simp [Nat.add_comm])

/-! ## The starred parameter -/

/-- The search goes past identifiers that it does not look for. -/
theorem swapStar_past (idParam : Option ℕ) (n m : ℕ) (hlength : n+m ≤ ids.length)
    (h : ∀ j,n≤j → j < n+m → ∀ id,ids[j]?=some id → id.flags≠.starParam∧
      (idParam=none → id.flags≠.param)) :
    swapStar ids (n+m) idParam=swapStar ids n idParam := by
  induction m with
  | zero => rfl
  | succ m ih =>
    have hj : n+m < ids.length := by omega
    have hid := List.getElem?_eq_getElem hj
    obtain ⟨hstar,hparam⟩ := h (n+m) (by omega) (by omega) _ hid
    have hstay : ¬(idParam=none∧ids[n+m].flags=.param) := fun hboth => hparam hboth.1 hboth.2
    rw [←Nat.add_assoc,swapStar,hid]
    dsimp only
    rw [if_neg hstar,if_neg hstay]
    exact ih (by omega) fun j hn hjm => h j hn (by omega)

/-- Without a parameter after the starred one nothing is exchanged. -/
theorem swapStar_last {a rest : List IdInfo} {star : IdInfo} (hstar : star.flags=.starParam)
    (hrest : ∀ id∈rest,id.flags≠.starParam∧id.flags≠.param) :
    swapStar (a++star::rest) (a++star::rest).length none=a++star::rest := by
  have hlength : (a++star::rest).length=a.length+1+rest.length := by
    simp [Nat.add_assoc,Nat.add_comm 1]
  have hat : (a++star::rest)[a.length]?=some star := by simp
  rw [hlength,swapStar_past none (a.length+1) rest.length (le_of_eq hlength.symm),swapStar,hat]
  · simp [hstar]
  · intro j hj _ id hid
    rw [List.getElem?_append_right (by omega)] at hid
    obtain ⟨k,hk⟩ : ∃ k,j-a.length=k+1 := ⟨j-a.length-1,by omega⟩
    rw [hk,List.getElem?_cons_succ] at hid
    have hboth := hrest id (mem_of_getElem? hid)
    exact ⟨hboth.1,fun _ => hboth.2⟩

/-- Otherwise it changes places with the last one. -/
theorem swapStar_swap {a init rest : List IdInfo} {star last : IdInfo}
    (hstar : star.flags=.starParam) (hlast : last.flags=.param)
    (hinit : ∀ id∈init,id.flags≠.starParam)
    (hrest : ∀ id∈rest,id.flags≠.starParam∧id.flags≠.param) :
    swapStar (a++star::(init++last::rest)) (a++star::(init++last::rest)).length none=
      a++last::(init++star::rest) := by
  generalize hids : a++star::(init++last::rest)=ids
  have hlength : ids.length=a.length+1+init.length+1+rest.length := by
    simp [←hids]
    omega
  have hatStar : ids[a.length]?=some star := by simp [←hids]
  have hatLast : ids[a.length+1+init.length]?=some last := by
    rw [←hids,List.getElem?_append_right (by omega)]
    have hindex : a.length+1+init.length-a.length=init.length+1 := by omega
    simp [hindex]
  have hpast := @swapStar_past ids none (a.length+1+init.length+1) rest.length
    (le_of_eq hlength.symm) fun j hj _ id hid => by
      rw [←hids,List.getElem?_append_right (by omega)] at hid
      obtain ⟨k,hk⟩ : ∃ k,j-a.length=k+1+init.length+1 :=
        ⟨j-a.length-init.length-2,by omega⟩
      rw [hk,List.getElem?_cons_succ,List.getElem?_append_right (by omega)] at hid
      have hdrop : k+1+init.length-init.length=k+1 := by omega
      rw [hdrop,List.getElem?_cons_succ] at hid
      have hboth := hrest id (mem_of_getElem? hid)
      exact ⟨hboth.1,fun _ => hboth.2⟩
  have hturn : swapStar ids (a.length+1+init.length+1) none=
      swapStar ids (a.length+1+init.length) (some (a.length+1+init.length)) := by
    rw [swapStar,hatLast]
    simp [hlast]
  have hinner := @swapStar_past ids (some (a.length+1+init.length)) (a.length+1)
    init.length (by omega) fun j hj hless id hid => by
      rw [←hids,List.getElem?_append_right (by omega)] at hid
      obtain ⟨k,hk⟩ : ∃ k,j-a.length=k+1 := ⟨j-a.length-1,by omega⟩
      rw [hk,List.getElem?_cons_succ,List.getElem?_append_left (by omega)] at hid
      exact ⟨hinit id (mem_of_getElem? hid),nofun⟩
  rw [hlength,hpast,hturn,hinner,swapStar,hatStar]
  simp only [hstar,↓reduceIte,Option.bind_some,hatLast,Option.map_some]
  have hindex : a.length+1+init.length-a.length=init.length+1 := by omega
  rw [←hids,set_append_right _ _ (by omega),hindex,set_cons_succ,
    set_append_right _ _ (Nat.le_refl _),Nat.sub_self,set_cons_zero,
    set_append_right _ _ (Nat.le_refl _),Nat.sub_self,set_cons_zero]

/-- Identifiers that have the same flags. -/
theorem of_entries {flags : Flags}
    (h : ids.map entry=xs.map (·,flags)) : names ids=xs∧∀ id∈ids,id.flags=flags := by
  refine ⟨?_,fun id hid => ?_⟩
  · rw [names_eq,h,map_map]
    exact map_id xs
  · have hentry : entry id∈xs.map (·,flags) := h ▸ mem_map_of_mem hid
    obtain ⟨x,_,hsame⟩ := mem_map.mp hentry
    exact (congrArg Prod.snd hsame).symm

/-- Parameters and what follows them. -/
structure Arranged (sig : Signature) (ids ids' : List IdInfo) : Prop where
  /-- The parameters are in the order of their slots, and no other identifier has flags. -/
  split : ∃ first rest,ids'=first++rest∧names first=slots sig∧
    (∀ id∈first,id.flags≠.none∨id.qst="")∧∀ id∈rest,id.flags=.none∧id.qst≠""
  /-- The identifiers are the same. -/
  perm : ids'.Perm ids

/-- The starred parameter is moved behind the others. -/
theorem arranged_of_entries {sig : Signature} {extra : List String}
    (h : ids.map entry=sig.entries++extra.map (·,Flags.none)) (hblank : ""∉extra) :
    Arranged sig ids (if sig.star.isSome=true then swapStar ids ids.length none else ids) := by
  obtain ⟨first,rest,rfl,hfirst,hrest⟩ := map_eq_append_iff.mp h
  obtain ⟨pos,_,rfl,hpos,hfirst⟩ := map_eq_append_iff.mp hfirst
  obtain ⟨star,_,rfl,hstar,hfirst⟩ := map_eq_append_iff.mp hfirst
  obtain ⟨kwonly,dblStar,rfl,hkwonly,hdblStar⟩ := map_eq_append_iff.mp hfirst
  obtain ⟨hposNames,hposFlags⟩ := of_entries hpos
  obtain ⟨hkwonlyNames,hkwonlyFlags⟩ := of_entries hkwonly
  obtain ⟨hdblStarNames,hdblStarFlags⟩ := of_entries hdblStar
  obtain ⟨hrestNames,hrestFlags⟩ := of_entries hrest
  obtain ⟨hstarNames,hstarFlags⟩ := of_entries hstar
  have hplain : ∀ id∈rest,id.flags=.none∧id.qst≠"" := fun id hid =>
    ⟨hrestFlags id hid,fun hname => hblank (hrestNames ▸ hname ▸ mem_map_of_mem hid)⟩
  have hflags : ∀ id,id∈pos∨id∈kwonly∨id∈star∨id∈dblStar → id.flags≠.none∨id.qst="" := by
    rintro id (hid | hid | hid | hid)
    · exact .inl (by simp [hposFlags id hid])
    · exact .inl (by simp [hkwonlyFlags id hid])
    · exact .inl (by simp [hstarFlags id hid])
    · exact .inl (by simp [hdblStarFlags id hid])
  have hbehind : ∀ id∈dblStar++rest,id.flags≠.starParam∧id.flags≠.param := by
    intro id hid
    rcases mem_append.mp hid with hdbl | hplain
    · simp [hdblStarFlags id hdbl]
    · simp [hrestFlags id hplain]
  cases hsome : sig.star with
  | none =>
    have hnone : star=[] := by simpa [hsome,names] using hstarNames
    subst hnone
    refine ⟨⟨pos++(kwonly++dblStar),rest,by simp,?_,fun id hid => hflags id ?_,hplain⟩,.refl _⟩
    · simpa [slots,kwonlySlots,hsome,names] using congrArg₂ List.append hposNames
        (congrArg₂ List.append hkwonlyNames hdblStarNames)
    · simp only [mem_append] at hid
      tauto
  | some x =>
    obtain ⟨id,hone⟩ : ∃ id,star=[id] := by
      have hlength := congrArg List.length hstarNames
      simp only [hsome,names,length_map,Option.toList_some] at hlength
      exact length_eq_one_iff.mp hlength
    subst hone
    have hid : id.flags=.starParam := hstarFlags id mem_cons_self
    have hx : id.qst=x := by simpa [hsome,names] using hstarNames
    rcases kwonly.eq_nil_or_concat with rfl | ⟨init,last,rfl⟩
    · have hempty : sig.kwonly=[] := hkwonlyNames.symm
      have hswap := @swapStar_last pos (dblStar++rest) id hid hbehind
      refine ⟨⟨pos++(id::dblStar),rest,?_,?_,fun id' hid' => hflags id' ?_,hplain⟩,?_⟩
      · simpa using hswap
      · simpa [slots,kwonlySlots,hsome,hempty,names,hx] using congrArg₂ List.append hposNames
          (congrArg (x::·) hdblStarNames)
      · simp only [mem_append,mem_cons] at hid' ⊢
        tauto
      · simpa using List.Perm.of_eq hswap
    · have hlast : last.flags=.param := hkwonlyFlags last (by simp)
      have hinit : ∀ id∈init,id.flags≠.starParam := fun id' hid' => by
        simp [hkwonlyFlags id' (by simp [hid'])]
      have hswap := @swapStar_swap pos init (dblStar++rest) id last hid hlast hinit hbehind
      have hkwonly : sig.kwonly=names init++[last.qst] := by
        simpa [names] using hkwonlyNames.symm
      refine ⟨⟨pos++(last::(init++(id::dblStar))),rest,?_,?_,fun id' hid' => hflags id' ?_,
        hplain⟩,?_⟩
      · simpa using hswap
      · simpa [slots,kwonlySlots,hsome,hkwonly,names,hx] using congrArg₂ List.append hposNames
          (congrArg (fun xs => last.qst::(names init++(x::xs))) hdblStarNames)
      · simp only [mem_append,mem_cons,concat_eq_append] at hid' ⊢
        tauto
      · have hperm : (pos++last::(init++id::(dblStar++rest))).Perm
            (pos++id::(init++last::(dblStar++rest))) := by
          refine List.Perm.append_left pos ?_
          refine (perm_middle.cons last).trans ?_
          exact (List.Perm.swap id last _).trans (perm_middle.symm.cons id)
        simpa [←hswap] using hperm

/-- The identifiers of a function after the move. -/
theorem arranged_of_tableOk (h : TableOk scope t)
    (hfunc : scope.kind.isFuncLike=true) : Arranged (signatureOf scope) t.ids (moveStar t) := by
  obtain ⟨extra,hentries,hblank⟩ := h.entries
  obtain ⟨kind,params,ancestors,items⟩ := scope
  have hparams : firstEntries ⟨kind,params,ancestors,items⟩=(signature false params).entries →
      signatureOf ⟨kind,params,ancestors,items⟩=signature false params →
        Arranged (signature false params) t.ids (moveStar t) := by
    intro hfirst hsig
    rw [hfirst] at hentries
    have hvarargs := h.varargs
    rw [hsig] at hvarargs
    rw [moveStar,hvarargs]
    exact arranged_of_entries hentries hblank
  have hcomp : firstEntries ⟨kind,params,ancestors,items⟩=[("",.none)] →
      signatureOf ⟨kind,params,ancestors,items⟩={Signature.none with pos := [""]} →
        Arranged {Signature.none with pos := [""]} t.ids (moveStar t) := by
    intro hfirst hsig
    rw [hfirst] at hentries
    have hvarargs := h.varargs
    rw [hsig] at hvarargs
    obtain ⟨first,rest,hids,hone,hrest⟩ := map_eq_append_iff.mp hentries
    obtain ⟨hrestNames,hrestFlags⟩ := of_entries hrest
    have hnames : names first=[""] := by rw [names_eq,hone]; rfl
    have hmove : moveStar t=t.ids := by simp [moveStar,hvarargs,Signature.none]
    rw [hmove]
    refine ⟨⟨first,rest,hids,hnames,fun id hid => .inr ?_,fun id hid => ?_⟩,.refl _⟩
    · have hmem : id.qst∈names first := mem_map_of_mem hid
      rw [hnames] at hmem
      exact mem_singleton.mp hmem
    · exact ⟨hrestFlags id hid,fun hname =>
        hblank (hrestNames ▸ hname ▸ mem_map_of_mem hid)⟩
  cases kind with
  | module => cases hfunc
  | classDef => cases hfunc
  | function => exact hparams rfl rfl
  | lambda => exact hparams rfl rfl
  | _ => exact hcomp rfl rfl

/-- Keyword-only parameters change their order at most. -/
theorem kwonlySlots_perm (sig : Signature) : (kwonlySlots sig).Perm sig.kwonly := by
  rw [kwonlySlots]
  split
  · exact .refl _
  · rcases sig.kwonly.eq_nil_or_concat with hnil | ⟨init,last,hconcat⟩
    · rw [hnil]
      exact .refl _
    · rw [hconcat]
      simpa using @perm_append_comm _ [last] init

/-- The slots are for the parameters in another order. -/
theorem slots_perm (sig : Signature) : (slots sig).Perm (sig.entries.map Prod.fst) := by
  have hfst : ∀ flags : Flags,(Prod.fst : String×Flags→String)∘(·,flags)=id := fun _ => rfl
  have hentries : sig.entries.map Prod.fst=
      sig.pos++(sig.star.toList++(sig.kwonly++sig.dblStar.toList)) := by
    simp [Signature.entries,hfst]
  rw [hentries,slots]
  refine List.Perm.append_left _ (((kwonlySlots_perm sig).append_right _).trans ?_)
  rw [←append_assoc,←append_assoc]
  exact perm_append_comm.append_right _

theorem length_slots (sig : Signature) : (slots sig).length=
    sig.pos.length+sig.kwonly.length+sig.star.toList.length+sig.dblStar.toList.length := by
  rw [(slots_perm sig).length_eq]
  simp [Signature.entries]
  omega

/-! ## The numbers of a function -/

/-- The identifiers of a function before they are numbered: parameters in the order of their
slots, and others. -/
structure Ready (sig : Signature) (ids : List IdInfo) : Prop where
  /-- Parameters are fast locals, and no other identifier has flags. -/
  split : ∃ first rest,ids=first++rest∧names first=slots sig∧
    (∀ id∈first,(id.kind=.local∨id.kind=.cell)∧(id.kind=.local∨id.flags≠.none))∧
      ∀ id∈rest,id.flags=.none
  nodup : (names ids).Nodup

/-- A fast local of a function. -/
def isFastLocal (id : IdInfo) : Bool := id.kind=.local∨id.flags≠.none

/-- The number of an identifier of a function before those that are not free are moved. -/
def unshifted (closed : List String) (ids : List IdInfo) (id : IdInfo) : ℕ :=
  if id.kind=.free then closed.idxOf id.qst
  else if isFastLocal id=true then (namesOf isFastLocal ids).idxOf id.qst
  else if isOwnCell id=true then
    (namesOf isFastLocal ids).length+(namesOf isOwnCell ids).idxOf id.qst
  else id.localNum

/-- The number of an identifier of a function. -/
def number (closed : List String) (ids : List IdInfo) (id : IdInfo) : ℕ :=
  if id.kind=.free then unshifted closed ids id
  else closed.length+unshifted closed ids id

/-- Functions have no `__class__` to leave out. -/
theorem isFast_of_isFuncLike (h : kind.isFuncLike=true) : isFast kind=isFastLocal := by
  refine funext fun id => ?_
  have hkind : kind≠.classDef := by
    rintro rfl
    cases h
  simp [isFast,isFastLocal,hkind]

theorem isOwnCell_of_isFastLocal (h : isFastLocal id=true) : isOwnCell id=false := by
  obtain ⟨qst,kind,flags,localNum⟩ := id
  cases kind <;> cases flags <;> simp_all [isFastLocal,isOwnCell]

/-- Free variables are no parameters. -/
theorem Ready.free_flags {sig : Signature} (h : Ready sig ids) :
    ∀ id∈ids,id.kind=.free → id.flags=.none := by
  obtain ⟨first,rest,rfl,_,hfirst,hrest⟩ := h.split
  intro id hid hfree
  rcases mem_append.mp hid with hparam | hother
  · rcases (hfirst id hparam).1 with hkind | hkind <;> simp [hfree] at hkind
  · exact hrest id hother

theorem Ready.free_not_fast {sig : Signature} (h : Ready sig ids) :
    ∀ id∈ids,id.kind=.free → isFastLocal id=false∧isOwnCell id=false := by
  intro id hid hfree
  simp [isFastLocal,isOwnCell,hfree,h.free_flags id hid hfree]

/-- The three loops number the identifiers. -/
theorem numbered_eq {sig : Signature} (hready : Ready sig ids) (hparent : (names parent).Nodup)
    (hfree : ∀ id∈ids,id.kind=.free → id.qst∈closeOver parent ids) :
    let (fast,n) := numberIds isFastLocal 0 ids
    let (cells,n') := numberIds isOwnCell n fast
    n'=(namesOf isFastLocal ids).length+(namesOf isOwnCell ids).length∧
      numberFrees parent 0 cells=(ids.map (withNum (unshifted (closeOver parent ids) ids)),
        (closeOver parent ids).length) := by
  have hown : Stable isOwnCell := fun _ _ => rfl
  have hmap : ∀ num,(names (ids.map (withNum num))).Nodup := fun num =>
    (names_map_withNum num ids).symm ▸ hready.nodup
  simp only [Nat.zero_add,numberIds_eq isFastLocal 0 hready.nodup,numberIds_eq isOwnCell _ (hmap _),
    map_withNum_map,namesOf_map hown,numberFrees_eq 0 hparent (hmap _),closeOver_map]
  refine ⟨trivial,Prod.ext (List.map_congr_left fun id hid => ?_) rfl⟩
  obtain ⟨qst,kind,flags,localNum⟩ := id
  have hboth := hready.free_not_fast _ hid
  have hpushed := hfree _ hid
  simp only [withNum,unshifted,isFastLocal,isOwnCell,decide_eq_true_eq] at hboth hpushed ⊢
  by_cases hkind : kind=.free
  · simp [hkind,hpushed hkind]
  · by_cases hfast : kind=.local∨flags≠.none
    · have hcell : ¬(kind=.cell∧flags=.none) := by
        rintro ⟨rfl,rfl⟩
        simp at hfast
      simp [hkind,hfast,hcell]
    · simp [hkind,hfast]

/-- What `scope_compute_things` computes of a function. -/
theorem scopeComputeThings_eq {sig : Signature}
    (hfunc : kind.isFuncLike=true) (hids : (moveStar t).map (explicitGlobal kind)=ids)
    (hready : Ready sig ids) (hparent : (names parent).Nodup)
    (hfree : ∀ id∈ids,id.kind=.free → id.qst∈closeOver parent ids) :
    scopeComputeThings kind (some parent) t={t with
      ids := ids.map (withNum (number (closeOver parent ids) ids))
      numPosArgs := t.numPosArgs+(closeOver parent ids).length
      numLocals := (namesOf isFastLocal ids).length+(namesOf isOwnCell ids).length+
        (closeOver parent ids).length} := by
  obtain ⟨hcells,hfrees⟩ := numbered_eq hready hparent hfree
  simp only [scopeComputeThings,hids,isFast_of_isFuncLike hfunc,hcells,hfrees]
  split
  case isTrue =>
    rw [map_map]
    have hmap : ∀ id∈ids,(shift (closeOver parent ids).length∘
        withNum (unshifted (closeOver parent ids) ids)) id=
          withNum (number (closeOver parent ids) ids) id := by
      intro id hid
      by_cases hkind : id.kind=.free
      · simp [shift,withNum,number,hkind,hready.free_flags id hid hkind]
      · simp [shift,withNum,number,hkind,Nat.add_comm]
    rw [map_congr_left hmap]
  case isFalse hpositive =>
    have hzero : (closeOver parent ids).length=0 := by omega
    have hsame : number (closeOver parent ids) ids=unshifted (closeOver parent ids) ids := by
      refine funext fun id => ?_
      simp [number,hzero]
    rw [hsame,hzero]
    rfl

/-! ## Where the numbers are used -/

theorem nodup_namesOf (which : IdInfo→Bool) (h : (names ids).Nodup) : (namesOf which ids).Nodup :=
  h.sublist (filter_sublist.map _)

/-- Every name that is pushed is pushed once. -/
theorem nodup_closeOver (hparent : (names parent).Nodup) (hids : (names ids).Nodup) :
    (closeOver parent ids).Nodup := by
  suffices h : (closeOver parent ids).Sublist (names parent) from hparent.sublist h
  clear hparent
  induction parent with
  | nil => exact .slnil
  | cons id parent ih =>
    have hcons : closeOver (id::parent) ids=(if isClosed id=true then
        (ids.filter (isFreeNamed id.qst)).map fun _ => id.qst else [])++closeOver parent ids := by
      by_cases hclosed : isClosed id=true <;> simp [closeOver,hclosed]
    have hnames : names (id::parent)=[id.qst]++names parent := rfl
    rw [hcons,hnames]
    refine List.Sublist.append ?_ ih
    split
    · rcases filter_isFreeNamed id.qst hids with hnone | ⟨free,hone,_⟩
      · simp [hnone]
      · simp [hone]
    · exact nil_sublist _

/-- The positions of different names. -/
theorem map_idxOf (h : xs.Nodup) : xs.map xs.idxOf=List.range xs.length := by
  refine ext_getElem (by simp) fun i hi _ => ?_
  rw [length_map] at hi
  simp [h.idxOf_getElem i hi]

/-- The identifiers of a function and their numbers. -/
structure Numbered (sig : Signature) (closed : List String) (ids : List IdInfo) (t : Table) :
    Prop where
  /-- Parameters come first. -/
  ready : Ready sig ids
  /-- Every free variable is pushed. -/
  frees : (namesOf (fun id => id.kind=.free) ids).Perm closed
  /-- Each identifier gets its number. -/
  table : t.ids=ids.map (withNum (number closed ids))
  /-- Free variables count as positional parameters. -/
  numPosArgs : t.numPosArgs=closed.length+sig.pos.length
  /-- Keyword-only parameters are counted. -/
  numKwonlyArgs : t.numKwonlyArgs=sig.kwonly.length
  /-- The flag of the scope. -/
  varargs : t.varargs=sig.star.isSome
  /-- All variables are counted. -/
  numLocals : t.numLocals=closed.length+
    ((namesOf isFastLocal ids).length+(namesOf isOwnCell ids).length)

variable {sig : Signature} {closed : List String}

theorem Ready.fast (h : Ready sig ids) :
    ∃ others,namesOf isFastLocal ids=slots sig++others := by
  obtain ⟨first,rest,rfl,hnames,hfirst,_⟩ := h.split
  have hall : first.filter isFastLocal=first := filter_eq_self.mpr fun id hid => by
    simpa [isFastLocal] using (hfirst id hid).2
  refine ⟨namesOf isFastLocal rest,?_⟩
  rw [namesOf,filter_append,hall,←hnames]
  exact map_append

theorem Ready.fast_of_mem (h : Ready sig ids) (hid : id∈ids)
    (hname : id.qst∈slots sig) : isFastLocal id=true∧(id.kind=.local∨id.kind=.cell) := by
  have hnodup := h.nodup
  obtain ⟨first,rest,rfl,hnames,hfirst,_⟩ := h.split
  rw [←hnames] at hname
  obtain ⟨id',hid',hsame⟩ := mem_map.mp hname
  have hfound := hfirst id' hid'
  rw [inj_on_of_nodup_map hnodup (mem_append_left _ hid') hid hsame] at hfound
  exact ⟨by simpa [isFastLocal] using hfound.2,hfound.1⟩

/-- The number of a parameter. -/
theorem Ready.number_param (h : Ready sig ids) (hid : id∈ids) {k : ℕ}
    (hk : (slots sig)[k]?=some id.qst) : number closed ids id=closed.length+k := by
  obtain ⟨hfast,hkind⟩ := h.fast_of_mem hid (mem_of_getElem? hk)
  obtain ⟨others,hothers⟩ := h.fast
  have hfree : id.kind≠.free := by
    rcases hkind with hkind | hkind <;> simp [hkind]
  have hnodup := nodup_namesOf isFastLocal h.nodup
  obtain ⟨hless,hat⟩ := List.getElem?_eq_some_iff.mp hk
  have hindex : (namesOf isFastLocal ids).idxOf id.qst=k := by
    rw [hothers] at hnodup ⊢
    rw [idxOf_append_of_mem (mem_of_getElem? hk),←hat]
    exact (nodup_append.mp hnodup).1.idxOf_getElem k hless
  simp [number,unshifted,hfree,hfast,hindex]

/-- Other locals and cells have numbers behind those of the parameters. -/
theorem Ready.number_other (h : Ready sig ids) {id : IdInfo}
    (hkind : id.kind=.local∨id.kind=.cell) (hname : id.qst∉slots sig) :
    closed.length+(slots sig).length ≤ number closed ids id := by
  obtain ⟨others,hothers⟩ := h.fast
  have hlength := congrArg List.length hothers
  rw [length_append] at hlength
  have hfree : id.kind≠.free := by
    rcases hkind with hkind | hkind <;> simp [hkind]
  by_cases hfast : isFastLocal id=true
  · have hindex := @idxOf_append_of_notMem _ (slots sig) others _ _ _ hname
    rw [←hothers] at hindex
    simp [number,unshifted,hfree,hfast,hindex]
  · have hcell : isOwnCell id=true := by
      rcases hkind with hkind | hkind
      · simp [isFastLocal,hkind] at hfast
      · simpa [isOwnCell,isFastLocal,hkind] using hfast
    simp [number,unshifted,hfree,hfast,hcell,hlength]
    omega

/-- Variables are free, fast or cells of the function. -/
theorem Ready.filter_variables (h : Ready sig ids) : (ids.filter isVariable).Perm
    (ids.filter (fun id => id.kind=.free)++(ids.filter isFastLocal++ids.filter isOwnCell)) := by
  have hall := filter_append_perm (fun id : IdInfo => decide (id.kind=.free))
    (ids.filter isVariable)
  have hfast := filter_append_perm isFastLocal
    ((ids.filter isVariable).filter fun id => !decide (id.kind=.free))
  simp only [filter_filter] at hall hfast
  have hkind : ∀ id∈ids,isFastLocal id=true → id.kind=.local∨id.kind=.cell := by
    obtain ⟨first,rest,rfl,_,hfirst,hrest⟩ := h.split
    intro id hid hfast
    rcases mem_append.mp hid with hparam | hother
    · exact (hfirst id hparam).1
    · simp only [isFastLocal,hrest id hother] at hfast
      exact .inl (by simpa using hfast)
  have hfrees : ids.filter (fun id => decide (id.kind=.free)&&isVariable id)=
      ids.filter fun id => id.kind=.free := filter_congr fun id _ => by
    by_cases hfree : id.kind=.free <;> simp [hfree,isVariable,isClosed]
  have hfasts : ids.filter (fun id => isFastLocal id&&(!decide (id.kind=.free)&&isVariable id))=
      ids.filter isFastLocal := filter_congr fun id hid => by
    by_cases hfast : isFastLocal id=true
    · rcases hkind id hid hfast with hlocal | hcell
      · simp [hfast,hlocal,isVariable]
      · simp [hfast,hcell,isVariable,isClosed]
    · simp [hfast]
  have hcells : ids.filter (fun id =>
      !isFastLocal id&&(!decide (id.kind=.free)&&isVariable id))=ids.filter isOwnCell :=
    filter_congr fun id _ => by
      obtain ⟨qst,kind,flags,localNum⟩ := id
      cases kind <;> cases flags <;> rfl
  rw [hfasts,hcells] at hfast
  rw [hfrees] at hall
  exact hall.symm.trans (hfast.symm.append_left _)

theorem map_positions {which : IdInfo→Bool} {num : IdInfo→ℕ} {n : ℕ} (hnodup : (names ids).Nodup)
    (hnum : ∀ id∈ids,which id=true → num id=n+(namesOf which ids).idxOf id.qst) :
    (ids.filter which).map num=(List.range (namesOf which ids).length).map (n+·) := by
  have hpositions := map_idxOf (nodup_namesOf which hnodup)
  rw [←hpositions,namesOf,names,map_map,map_map]
  refine map_congr_left fun id hid => ?_
  obtain ⟨hmem,hwhich⟩ := mem_filter.mp hid
  exact hnum id hmem hwhich

/-- Every number below the number of locals belongs to one variable. -/
theorem Numbered.numbers (h : Numbered sig closed ids t) :
    ((t.ids.filter isVariable).map IdInfo.localNum).Perm (List.range t.numLocals) := by
  have hready := h.ready
  have hsame : isVariable∘withNum (number closed ids)=isVariable := rfl
  have hnumbers : (t.ids.filter isVariable).map IdInfo.localNum=
      (ids.filter isVariable).map (number closed ids) := by
    rw [h.table,filter_map,hsame,map_map]
    rfl
  have hfrees : ((ids.filter fun id => id.kind=.free).map (number closed ids)).Perm
      (List.range closed.length) := by
    have hmap : (ids.filter fun id => id.kind=.free).map (number closed ids)=
        (namesOf (fun id => id.kind=.free) ids).map closed.idxOf := by
      rw [namesOf,names,map_map]
      refine map_congr_left fun id hid => ?_
      have hfree : id.kind=.free := by simpa using (mem_filter.mp hid).2
      simp [number,unshifted,hfree]
    rw [hmap,←map_idxOf (h.frees.nodup (nodup_namesOf _ hready.nodup))]
    exact h.frees.map _
  have hkinds : ∀ id∈ids,isFastLocal id=true∨isOwnCell id=true → id.kind≠.free := by
    intro id hid hor hfree
    have hneither := hready.free_not_fast id hid hfree
    rcases hor with hfast | hcell
    · simp [hneither.1] at hfast
    · simp [hneither.2] at hcell
  have hfast := @map_positions ids isFastLocal (number closed ids) closed.length hready.nodup
    fun id hid hfast => by simp [number,unshifted,hkinds id hid (.inl hfast),hfast]
  have hcells := @map_positions ids isOwnCell (number closed ids)
    (closed.length+(namesOf isFastLocal ids).length) hready.nodup fun id hid hcell => by
      have hslow : isFastLocal id≠true := fun hfast => by
        simp [isOwnCell_of_isFastLocal hfast] at hcell
      simp [number,unshifted,hkinds id hid (.inr hcell),hslow,hcell,Nat.add_assoc]
  have hperm := hready.filter_variables.map (number closed ids)
  rw [map_append,map_append,hfast,hcells] at hperm
  rw [hnumbers,h.numLocals,range_add,range_add,map_append,map_map]
  refine hperm.trans (hfrees.append (.of_eq ?_))
  have hadd : (fun k => closed.length+(namesOf isFastLocal ids).length+k)=
      (closed.length+·)∘((namesOf isFastLocal ids).length+·) :=
    funext fun k => Nat.add_assoc _ _ _
  rw [hadd]

/-- A free variable has the position at which it is pushed. -/
theorem Numbered.frees_at (h : Numbered sig closed ids t) (k : ℕ) (x : String) :
    closed[k]?=some x↔∃ id∈t.ids,id.qst=x∧id.kind=.free∧id.localNum=k := by
  have hnodup := h.frees.nodup (nodup_namesOf _ h.ready.nodup)
  have hnum : ∀ id : IdInfo,id.kind=.free → number closed ids id=closed.idxOf id.qst :=
    fun id hfree => by simp [number,unshifted,hfree]
  constructor
  · intro hk
    obtain ⟨hless,hat⟩ := List.getElem?_eq_some_iff.mp hk
    obtain ⟨id,hid,hname⟩ := mem_map.mp (h.frees.mem_iff.mpr (mem_of_getElem? hk))
    obtain ⟨hmem,hfree⟩ := mem_filter.mp hid
    have hfree : id.kind=.free := by simpa using hfree
    refine ⟨withNum (number closed ids) id,h.table ▸ mem_map_of_mem hmem,hname,hfree,?_⟩
    refine (hnum id hfree).trans ?_
    rw [hname,←hat]
    exact hnodup.idxOf_getElem k hless
  · rintro ⟨id,hid,rfl,hfree,rfl⟩
    rw [h.table] at hid
    obtain ⟨id',hid',rfl⟩ := mem_map.mp hid
    have hkind : id'.kind=.free := hfree
    have hmem : id'.qst∈closed := h.frees.mem_iff.mp
      (mem_map_of_mem (mem_filter.mpr ⟨hid',by simpa using hkind⟩))
    have hlocalNum : (withNum (number closed ids) id').localNum=closed.idxOf id'.qst :=
      hnum id' hkind
    rw [hlocalNum]
    exact List.getElem?_idxOf hmem

/-- The slot of a parameter. -/
theorem Numbered.slot_param (h : Numbered sig closed ids t) {k : ℕ}
    (hk : (slots sig)[k]?=some x) : slot t x=some (closed.length+k) := by
  obtain ⟨others,hothers⟩ := h.ready.fast
  have hmem : x∈namesOf isFastLocal ids := by
    rw [hothers]
    exact mem_append_left _ (mem_of_getElem? hk)
  obtain ⟨id,hid,hname⟩ := mem_map.mp hmem
  have hfind : ((scopeFind ids x).isSome : Prop) := by
    simp only [scopeFind,List.find?_isSome]
    exact ⟨id,(mem_filter.mp hid).1,by simpa using hname⟩
  obtain ⟨found,hfound⟩ := Option.isSome_iff_exists.mp hfind
  obtain ⟨hin,hsame⟩ := scopeFind_some hfound
  have htable : scopeFind t.ids x=some (withNum (number closed ids) found) := by
    have hpred : (fun id : IdInfo => decide (id.qst=x))∘withNum (number closed ids)=
        fun id => decide (id.qst=x) := rfl
    rw [h.table,scopeFind,List.find?_map,hpred]
    exact congrArg (Option.map _) hfound
  rw [slot,htable]
  exact congrArg some (h.ready.number_param hin (hsame.symm ▸ hk))

/-! ## When calls find their arguments -/

/-- A parameter is a cell. -/
def IsCell (ids : List IdInfo) (x : String) : Prop := ∃ id∈ids,id.qst=x∧id.kind=.cell

/-- The parameters with their numbers, and what follows them. -/
theorem Numbered.split (h : Numbered sig closed ids t) : ∃ first rest,t.ids=first++rest∧
    (∀ id∈first,id.flags≠.none∨id.kind=.local)∧(∀ id∈rest,id.flags=.none)∧
      ∀ id∈first,∃ k,(slots sig)[k]?=some id.qst∧id.localNum=closed.length+k := by
  have hready := h.ready
  obtain ⟨first,rest,hids,hnames,hfirst,hrest⟩ := hready.split
  refine ⟨first.map (withNum (number closed ids)),rest.map (withNum (number closed ids)),?_,?_,
    ?_,?_⟩
  · rw [h.table,hids,map_append]
  · intro id hid
    obtain ⟨id',hid',rfl⟩ := mem_map.mp hid
    exact (hfirst id' hid').2.symm
  · intro id hid
    obtain ⟨id',hid',rfl⟩ := mem_map.mp hid
    exact hrest id' hid'
  · intro id hid
    obtain ⟨id',hid',rfl⟩ := mem_map.mp hid
    have hname : id'.qst∈slots sig := hnames ▸ mem_map_of_mem hid'
    obtain ⟨k,hk⟩ := mem_iff_getElem?.mp hname
    exact ⟨k,hk,hready.number_param (hids ▸ mem_append_left _ hid') hk⟩

/-- Slots that are boxed have numbers below 255. -/
theorem boxed_less (ht : n∈boxed t) : n < 255 := by
  have hsentinel : n≠255 := by simpa using mem_takeWhile_imp ht
  have hbyte := (List.takeWhile_prefix _).subset ht
  rcases mem_append.mp hbyte with hcell | hend
  · obtain ⟨id,_,rfl⟩ := mem_map.mp hcell
    omega
  · exact absurd (mem_singleton.mp hend) hsentinel

/-- All cells among the parameters are boxed when their numbers are below 255. -/
theorem mem_boxed {first rest : List IdInfo} (hids : t.ids=first++rest)
    (hless : ∀ id∈first,id.kind=.cell → id.localNum < 255) (hid : id∈first)
    (hcell : id.kind=.cell) : id.localNum∈boxed t := by
  have hbytes : ∀ id∈first,id.kind=.cell → id.localNum%256=id.localNum := fun id hid hcell =>
    mod_eq_of_lt (lt_trans (hless id hid hcell) (by decide))
  rw [boxed,cellBytes,hids,filter_append,map_append,append_assoc,takeWhile_append_of_pos]
  · refine mem_append_left _ (mem_map.mpr ⟨id,?_,hbytes id hid hcell⟩)
    exact mem_filter.mpr ⟨hid,by simpa using hcell⟩
  · intro n hn
    obtain ⟨id',hid',rfl⟩ := mem_map.mp hn
    obtain ⟨hmem,hkind⟩ := mem_filter.mp hid'
    have hkind : id'.kind=.cell := by simpa using hkind
    have hlt := hless id' hmem hkind
    rw [hbytes id' hmem hkind]
    simpa using Nat.ne_of_lt hlt

/-- The numbers fit the call just when the arguments fit in a byte and no cell among them is
behind slot 254. -/
theorem Numbered.layout_iff (h : Numbered sig closed ids t) : Layout sig closed t↔
    closed.length+sig.pos.length < 256∧sig.kwonly.length < 256∧
      ∀ (k : ℕ) (x : String),(slots sig)[k]?=some x → IsCell ids x → closed.length+k < 255 := by
  obtain ⟨first,rest,hids,hfirst,hrest,hnumber⟩ := h.split
  have hlocal : ∀ {id : IdInfo},id∈ids → id.kind=.cell → id.qst∈slots sig →
      withNum (number closed ids) id∈first := by
    intro id hid hcell hname
    have hmem : withNum (number closed ids) id∈first++rest := by
      rw [←hids,h.table]
      exact mem_map_of_mem hid
    rcases mem_append.mp hmem with hparam | hother
    · exact hparam
    · have hfast := (h.ready.fast_of_mem hid hname).1
      have hflags : (withNum (number closed ids) id).flags=.none := hrest _ hother
      have hflags : id.flags=.none := hflags
      simp [isFastLocal,hcell,hflags] at hfast
  constructor
  · intro hl
    have hbyte := mod_lt t.numPosArgs (by decide : 0 < 256)
    have hbyte' := mod_lt t.numKwonlyArgs (by decide : 0 < 256)
    refine ⟨?_,?_,fun k x hk ⟨id,hid,hname,hcell⟩ => ?_⟩
    · rw [←hl.nPosArgs]
      exact hbyte
    · rw [←hl.nKwonlyArgs]
      exact hbyte'
    · subst hname
      have hmem := hlocal hid hcell (mem_of_getElem? hk)
      have hflags : id.flags≠.none := by
        rcases hfirst (withNum (number closed ids) id) hmem with hflags | hkind
        · exact hflags
        · exact absurd (hcell.symm.trans hkind) nofun
      have hboxed := hl.boxed (withNum (number closed ids) id)
        (hids ▸ mem_append_left _ hmem) hcell hflags
      have hnum : (withNum (number closed ids) id).localNum=closed.length+k :=
        h.ready.number_param hid hk
      rw [hnum] at hboxed
      exact boxed_less hboxed
  · rintro ⟨hpos,hkwonly,hcells⟩
    have hnPosArgs : nPosArgs t=closed.length+sig.pos.length := by
      rw [nPosArgs,h.numPosArgs]
      exact mod_eq_of_lt hpos
    have hnKwonlyArgs : nKwonlyArgs t=sig.kwonly.length := by
      rw [nKwonlyArgs,h.numKwonlyArgs]
      exact mod_eq_of_lt hkwonly
    have hat : ∀ {k x},(slots sig)[sig.pos.length+k]?=some x →
        slot t x=some (ScopeLayout.nPosArgs t+k) := by
      intro k x hk
      rw [h.slot_param hk,hnPosArgs,Nat.add_assoc]
    have hlength := (kwonlySlots_perm sig).length_eq
    refine ⟨h.numbers,h.frees_at,hnPosArgs,fun k x hk => ?_,hnKwonlyArgs,fun x hx => ?_,
      fun x hx => ?_,fun x hx => ?_,fun id hid hkind hname => ?_,fun id hid hcell hflags => ?_⟩
    · refine h.slot_param ?_
      rw [slots,List.getElem?_append_left (List.getElem?_eq_some_iff.mp hk).1]
      exact hk
    · obtain ⟨k,hk⟩ := mem_iff_getElem?.mp ((kwonlySlots_perm sig).mem_iff.mpr hx)
      have hless := (List.getElem?_eq_some_iff.mp hk).1
      refine ⟨k,hlength ▸ hless,hat ?_⟩
      rw [slots,List.getElem?_append_right (by omega),Nat.add_sub_cancel_left,
        List.getElem?_append_left hless]
      exact hk
    · have hstar : sig.star=some x := hx
      rw [varPosKwArgs,hnKwonlyArgs]
      refine hat ?_
      rw [slots,List.getElem?_append_right (by omega),Nat.add_sub_cancel_left,
        List.getElem?_append_right (by omega),hlength,Nat.sub_self]
      simp [hstar]
    · have hdblStar : sig.dblStar=some x := hx
      have hvarargs : (if t.varargs=true then 1 else 0)=sig.star.toList.length := by
        rw [h.varargs]
        cases sig.star <;> rfl
      rw [varPosKwArgs,hnKwonlyArgs,hvarargs,Nat.add_assoc]
      refine hat ?_
      rw [slots,List.getElem?_append_right (by omega),Nat.add_sub_cancel_left,
        List.getElem?_append_right (by omega),hlength,Nat.add_sub_cancel_left]
      simp [hdblStar]
    · have hother : id.qst∉slots sig := fun hmem => hname ((slots_perm sig).mem_iff.mp hmem)
      rw [h.table] at hid
      obtain ⟨id',_,rfl⟩ := mem_map.mp hid
      have hbehind := @Ready.number_other ids sig closed h.ready id' hkind hother
      rw [length_slots] at hbehind
      rw [varPosKwArgs,hnPosArgs,hnKwonlyArgs]
      exact le_trans (le_of_eq (by omega)) hbehind
    · have hmem : id∈first := by
        rw [hids] at hid
        rcases mem_append.mp hid with hparam | hother
        · exact hparam
        · exact absurd (hrest id hother) hflags
      refine mem_boxed hids (fun id' hid' hcell' => ?_) hmem hcell
      obtain ⟨k,hk,hnum⟩ := hnumber id' hid'
      rw [hnum]
      have hin : id'∈t.ids := hids ▸ mem_append_left _ hid'
      rw [h.table] at hin
      obtain ⟨id'',hid'',rfl⟩ := mem_map.mp hin
      exact hcells k _ hk ⟨id'',hid'',rfl,hcell'⟩

/-! ## What is computed of other scopes -/

/-- An identifier without its number. -/
def bare (id : IdInfo) : IdInfo := {id with localNum := 0}

/-- Numbering changes numbers only. -/
theorem numberIds_bare (which : IdInfo→Bool) (n : ℕ) (ids : List IdInfo) :
    (numberIds which n ids).1.map bare=ids.map bare := by
  induction ids generalizing n with
  | nil => rfl
  | cons id ids ih =>
    rw [numberIds]
    split
    · exact congrArg (bare id::·) (ih (n+1))
    · exact congrArg (bare id::·) (ih n)

/-- So does the loop over the parent. -/
theorem numberFrees_bare (parent : List IdInfo) (n : ℕ) (ids : List IdInfo) :
    (numberFrees parent n ids).1.map bare=ids.map bare := by
  induction parent generalizing n ids with
  | nil => rfl
  | cons id parent ih =>
    rw [numberFrees]
    split
    · exact (ih _ _).trans (numberIds_bare _ _ _)
    · exact ih _ _

/-- A shift changes numbers only. -/
theorem shift_bare (n : ℕ) (ids : List IdInfo) : (ids.map (shift n)).map bare=ids.map bare := by
  rw [map_map]
  refine map_congr_left fun id _ => ?_
  rw [Function.comp_apply,shift]
  split <;> rfl

/-- The identifiers of a scope stay the same except for their numbers. -/
theorem scopeComputeThings_bare (kind : ScopeKind) (parent? : Option (List IdInfo)) (t : Table) :
    (scopeComputeThings kind parent? t).ids.map bare=
      ((moveStar t).map (explicitGlobal kind)).map bare := by
  rw [scopeComputeThings]
  cases parent? with
  | none => exact (numberIds_bare _ _ _).trans (numberIds_bare _ _ _)
  | some parent =>
    have hframe := (numberFrees_bare parent 0 (numberIds isOwnCell
      (numberIds (isFast kind) 0 ((moveStar t).map (explicitGlobal kind))).2
      (numberIds (isFast kind) 0 ((moveStar t).map (explicitGlobal kind))).1).1).trans
        ((numberIds_bare _ _ _).trans (numberIds_bare _ _ _))
    dsimp only
    split
    · exact (shift_bare _ _).trans hframe
    · exact hframe

theorem explicitGlobal_qst (kind : ScopeKind) (id : IdInfo) :
    (explicitGlobal kind id).qst=id.qst∧(explicitGlobal kind id).flags=id.flags := by
  rw [explicitGlobal]
  split <;> exact ⟨rfl,rfl⟩

/-- Variables keep their kinds. -/
theorem explicitGlobal_kind (kind : ScopeKind) (id : IdInfo) {found : IdKind}
    (hlocal : found=.local∨found=.cell∨found=.free) :
    (explicitGlobal kind id).kind=found↔id.kind=found := by
  rw [explicitGlobal]
  split
  case isTrue hglobal =>
    rw [hglobal.2]
    rcases hlocal with rfl | rfl | rfl <;> exact ⟨nofun,nofun⟩
  case isFalse => exact Iff.rfl

/-- The table of any scope has the same identifiers as before. -/
theorem moveStar_perm (h : TableOk scope t) : (moveStar t).Perm t.ids := by
  by_cases hfunc : scope.kind.isFuncLike=true
  · exact (arranged_of_tableOk h hfunc).perm
  · have hvarargs := h.varargs
    obtain ⟨kind,params,ancestors,items⟩ := scope
    cases kind with
    | module => simp [moveStar,hvarargs,signatureOf,Signature.none]
    | classDef => simp [moveStar,hvarargs,signatureOf,Signature.none]
    | _ => exact absurd rfl hfunc

/-- Names stay the same. -/
theorem names_computed (h : TableOk scope t) (parent? : Option (List IdInfo)) :
    (names (scopeComputeThings scope.kind parent? t).ids).Perm (names t.ids) := by
  have hbare : ∀ ids : List IdInfo,names ids=(ids.map bare).map IdInfo.qst := fun ids => by
    rw [map_map]
    rfl
  have hsame : (((moveStar t).map (explicitGlobal scope.kind)).map bare).map IdInfo.qst=
      names (moveStar t) := by
    rw [map_map,map_map]
    exact map_congr_left fun id _ => (explicitGlobal_qst scope.kind id).1
  rw [hbare,scopeComputeThings_bare,hsame]
  exact (moveStar_perm h).map _

/-- Variables stay the same. -/
theorem mem_computed (h : TableOk scope t) (parent? : Option (List IdInfo))
    (hid : id∈t.ids) (hkind : id.kind=.cell∨id.kind=.free) :
    ∃ id'∈(scopeComputeThings scope.kind parent? t).ids,id'.qst=id.qst∧id'.kind=id.kind := by
  have hmem : bare (explicitGlobal scope.kind id)∈
      (scopeComputeThings scope.kind parent? t).ids.map bare := by
    rw [scopeComputeThings_bare]
    exact mem_map_of_mem (mem_map_of_mem ((moveStar_perm h).mem_iff.mpr hid))
  obtain ⟨id',hid',hsame⟩ := mem_map.mp hmem
  refine ⟨id',hid',?_,?_⟩
  · exact (congrArg IdInfo.qst hsame).trans (explicitGlobal_qst scope.kind id).1
  · exact (congrArg IdInfo.kind hsame).trans
      ((explicitGlobal_kind scope.kind id (.inr hkind)).mpr rfl)

/-! ## All scopes -/

/-- The loop keeps the scopes. -/
@[simp]
theorem computeThings_scopes (state : State) (n : ℕ) :
    (computeThings state n).scopes=state.scopes := by
  induction n with
  | zero => rfl
  | succ n ih =>
    rw [computeThings,computeOne]
    split <;> exact ih

variable {j : ℕ}

/-- Tables of scopes to come stay. -/
theorem computeThings_later (state : State) (n : ℕ) (hj : n ≤ j) :
    (computeThings state n).table j=state.table j := by
  induction n with
  | zero => rfl
  | succ n ih =>
    rw [computeThings,computeOne]
    split
    · exact ih (by omega)
    · rw [State.setTable_of_ne _ _ (by omega)]
      exact ih (by omega)

/-- Each scope is computed from the final table of its parent. -/
theorem computeThings_at {done : ℕ} (h : Ordered done state) (n : ℕ)
    (hj : j < n) (hscope : state.scopes[j]?=some scope) :
    (computeThings state n).table j=scopeComputeThings scope.kind
      (parentIds (computeThings state n) scope) (state.table j) := by
  induction n with
  | zero => cases hj
  | succ n ih =>
    have hparents := (h.chain j scope hscope).1
    have hkeep : ∀ t,parentIds ((computeThings state n).setTable n t) scope=
        parentIds (computeThings state n) scope := by
      intro t
      obtain ⟨kind,params,ancestors,items⟩ := scope
      cases ancestors with
      | nil => rfl
      | cons p rest =>
        have hp : p≠n := by
          have hless := hparents p mem_cons_self
          omega
        exact congrArg (fun t => some t.ids) (State.setTable_of_ne _ _ hp)
    rw [computeThings,computeOne,computeThings_scopes]
    by_cases hsame : j=n
    · subst hsame
      rw [hscope]
      rw [State.setTable_self,hkeep,computeThings_later state j (Nat.le_refl j)]
    · have hless : j < n := by omega
      cases hnext : state.scopes[n]? with
      | none => exact ih hless
      | some next =>
        rw [State.setTable_of_ne _ _ hsame,hkeep]
        exact ih hless

/-- What a table has for a name. -/
theorem scopeFind_of_mem (h : (names ids).Nodup) (hid : id∈ids) : scopeFind ids id.qst=some id := by
  have hfind : (scopeFind ids id.qst).isSome=true := by
    simp only [scopeFind,List.find?_isSome]
    exact ⟨id,hid,by simp⟩
  obtain ⟨found,hfound⟩ := Option.isSome_iff_exists.mp hfind
  obtain ⟨hin,hname⟩ := scopeFind_some hfound
  rw [hfound,inj_on_of_nodup_map h hin hid hname]

/-- A function is ready to be numbered. -/
theorem ready_of_tableOk (h : TableOk scope t) (hfunc : scope.kind.isFuncLike=true) :
    Ready (signatureOf scope) ((moveStar t).map (explicitGlobal scope.kind)) := by
  have harranged := arranged_of_tableOk h hfunc
  obtain ⟨first,rest,hids,hnames,hfirst,hrest⟩ := harranged.split
  have hname : ∀ ids : List IdInfo,names (ids.map (explicitGlobal scope.kind))=names ids :=
    fun ids => by
      rw [names,map_map]
      exact map_congr_left fun id _ => (explicitGlobal_qst scope.kind id).1
  refine ⟨⟨first.map (explicitGlobal scope.kind),rest.map (explicitGlobal scope.kind),?_,?_,?_,
    ?_⟩,?_⟩
  · rw [hids,map_append]
  · rw [hname,hnames]
  · intro id hid
    obtain ⟨id',hid',rfl⟩ := mem_map.mp hid
    have hmem : id'∈t.ids := harranged.perm.mem_iff.mp (hids ▸ mem_append_left _ hid')
    obtain ⟨hparam,hblank⟩ := h.settled id' hmem
    have hlocal := @explicitGlobal_kind scope.kind id' .local (.inl rfl)
    have hcell := @explicitGlobal_kind scope.kind id' .cell (.inr (.inl rfl))
    rw [hlocal,hcell,(explicitGlobal_qst scope.kind id').2]
    rcases hfirst id' hid' with hflags | hname
    · exact ⟨hparam hflags,.inr hflags⟩
    · exact ⟨.inl (hblank hname),.inl (hblank hname)⟩
  · intro id hid
    obtain ⟨id',hid',rfl⟩ := mem_map.mp hid
    exact (explicitGlobal_qst scope.kind id').2.trans (hrest id' hid').1
  · rw [hname]
    exact (harranged.perm.map _).nodup_iff.mpr h.nodup

/-- Inner scopes are not modules. -/
theorem itemUses_kind {items : List Item} {inside : List ScopePass.Use}
    (h : .scope kind inside∈itemUses items) : kind≠.module := by
  induction items with
  | nil => cases h
  | cons item items ih =>
    rw [itemUses] at h
    rcases mem_cons.mp h with hsame | hrest
    · cases item with
      | scope header body =>
        rw [Item.use] at hsame
        cases hsame
        cases header <;> rintro ⟨⟩
      | _ =>
        rw [Item.use] at hsame
        cases hsame
    · exact ih hrest

/-- No scope is started behind the scenes. -/
theorem implicitUses_scope (kind : ScopeKind) {kind' : ScopeKind} {inside : List ScopePass.Use} :
    .scope kind' inside∉ScopePass.implicitUses kind := by
  cases kind <;> simp [ScopePass.implicitUses]

/-- Only the first scope is a module. -/
theorem kind_of_later {uses : List ScopePass.Use} {done : ℕ}
    (h : ScopePass.Progress uses done state.plain) (hscope : state.scopes[j+1]?=some scope) :
    scope.kind≠.module := by
  have hplain : state.plain.scopes[j+1]?=some scope.plain := by
    simp [State.plain,hscope]
  obtain ⟨p,hp,_,_,inside,hinside,_⟩ := h.linked.parent j scope.plain hplain
  have hlength := (List.getElem?_eq_some_iff.mp hscope).1
  have hless : p < state.scopes.length := by omega
  have hparent : state.plain.scopes[p]?=some (state.scopes[p].plain) := by
    simp [State.plain,hless]
  rw [(ScopePass.State.at hparent).1] at hinside
  rcases mem_append.mp hinside with himplicit | hrest
  · exact absurd himplicit (implicitUses_scope _)
  · rcases mem_append.mp hrest with hparam | hitem
    · obtain ⟨param,_,huse⟩ := mem_filterMap.mp hparam
      cases param <;> cases huse
    · exact itemUses_kind hitem

/-- The parent of a function has its free variables, and is no module if there are any. -/
theorem parent_of_function {uses : List ScopePass.Use}
    (hprogress : ScopePass.Progress uses state.scopes.length state.plain)
    (h : Ordered state.scopes.length state) (hscope : state.scopes[j]?=some scope)
    (hfunc : scope.kind.isFuncLike=true) :
    ∃ p rest,scope.ancestors=p::rest∧∃ other,state.scopes[p]?=some other∧
      ∀ id∈(state.table j).ids,id.kind=.free → other.kind≠.module∧
        ∃ id'∈(state.table p).ids,id'.qst=id.qst∧(id'.kind=.cell∨id'.kind=.free) := by
  have hlength := (List.getElem?_eq_some_iff.mp hscope).1
  cases j with
  | zero =>
    obtain ⟨body,hroot⟩ := h.root
    rw [hroot] at hscope
    cases hscope
    cases hfunc
  | succ j =>
    have hplain : state.plain.scopes[j+1]?=some scope.plain := by
      simp [State.plain,hscope]
    obtain ⟨p,hp,_,hancestors,_⟩ := hprogress.linked.parent j scope.plain hplain
    have hless : p < state.scopes.length := by omega
    refine ⟨p,state.plain.ancestors p,hancestors,state.scopes[p],
      List.getElem?_eq_getElem hless,fun id hid hfree => ?_⟩
    have hok := h.tables (j+1) scope hlength hscope
    have hkind : state.plain.kindOf (j+1) id.qst=some .free := by
      have hfind := congrArg (Option.map IdInfo.kind) (scopeFind_of_mem hok.nodup hid)
      exact hfind.trans (congrArg some hfree)
    have houter := hprogress.free (j+1) hlength id.qst hkind
    have hchain : state.plain.ancestors (j+1)=p::state.plain.ancestors p :=
      (ScopePass.State.at hplain).2.trans hancestors
    rw [hchain] at houter
    cases hrest : state.plain.ancestors p with
    | nil =>
      rw [hrest] at houter
      exact houter.elim
    | cons q rest =>
      rw [hrest] at houter
      refine ⟨?_,?_⟩
      · cases p with
        | zero =>
          obtain ⟨body,hroot⟩ := h.root
          have hnone : state.plain.ancestors 0=[] := by
            simp [ScopePass.State.ancestors,State.plain,hroot,Scope.plain]
          rw [hnone] at hrest
          cases hrest
        | succ p => exact kind_of_later hprogress (List.getElem?_eq_getElem hless)
      · have hfound : ∀ {kind},state.plain.kindOf p id.qst=some kind →
            ∃ id'∈(state.table p).ids,id'.qst=id.qst∧id'.kind=kind := by
          intro kind hkind
          obtain ⟨id',hfind,hkind⟩ := Option.map_eq_some_iff.mp hkind
          obtain ⟨hmem,hname⟩ := scopeFind_some hfind
          exact ⟨id',hmem,hname,hkind⟩
        rcases houter with hfree | hcell
        · obtain ⟨id',hmem,hname,hkind⟩ := hfound hfree
          exact ⟨id',hmem,hname,.inr hkind⟩
        · obtain ⟨id',hmem,hname,hkind⟩ := hfound hcell
          exact ⟨id',hmem,hname,.inl hkind⟩

/-- The state after the pass and the loop. -/
def computeAll (state : State) : State := computeThings state state.scopes.length

/-- The identifiers of a function are numbered in the order in which its closure is made. -/
theorem numbered_of_scopePass {body : List Item}
    (h : scopePass body=.ok state) (hscope : state.scopes[j]?=some scope)
    (hfunc : scope.kind.isFuncLike=true) :
    Numbered (signatureOf scope) (pushed (computeAll state) scope ((computeAll state).table j).ids)
      ((moveStar (state.table j)).map (explicitGlobal scope.kind))
      ((computeAll state).table j) := by
  obtain ⟨hordered,hprogress⟩ := scopePass_ordered h
  have hlength := (List.getElem?_eq_some_iff.mp hscope).1
  obtain ⟨p,rest,hancestors,other,hother,hparent⟩ :=
    parent_of_function hprogress hordered hscope hfunc
  have hplength := (List.getElem?_eq_some_iff.mp hother).1
  have hok := hordered.tables j scope hlength hscope
  have hokParent := hordered.tables p other hplength hother
  have hready := ready_of_tableOk hok hfunc
  have htable := computeThings_at hordered state.scopes.length hlength hscope
  have hptable := computeThings_at hordered state.scopes.length hplength hother
  rw [←computeAll] at htable hptable
  obtain ⟨ids,hids⟩ : ∃ ids,(moveStar (state.table j)).map (explicitGlobal scope.kind)=ids :=
    ⟨_,rfl⟩
  generalize hparentIds : ((computeAll state).table p).ids=parent
  rw [hids] at hready ⊢
  have hsome : parentIds (computeAll state) scope=some parent := by
    simp [parentIds,hancestors,hparentIds]
  have hnodup : (names parent).Nodup := by
    rw [←hparentIds,hptable]
    exact (names_computed hokParent _).nodup_iff.mpr hokParent.nodup
  have horigin : ∀ id∈ids,id.kind=.free → ∃ id'∈(state.table j).ids,id'.qst=id.qst∧
      id'.kind=.free := by
    intro id hid hfree
    rw [←hids] at hid
    obtain ⟨id',hid',rfl⟩ := mem_map.mp hid
    exact ⟨id',(moveStar_perm hok).mem_iff.mp hid',(explicitGlobal_qst scope.kind id').1.symm,
      (explicitGlobal_kind scope.kind id' (.inr (.inr rfl))).mp hfree⟩
  have hclosed : ∀ id∈ids,id.kind=.free → id.qst∈closeOver parent ids := by
    intro id hid hfree
    obtain ⟨id',hid',hname,hfree'⟩ := horigin id hid hfree
    obtain ⟨_,outer,houter,hsame,hkind⟩ := hparent id' hid' hfree'
    obtain ⟨final,hfinal,hfname,hfkind⟩ :=
      mem_computed hokParent (parentIds (computeAll state) other) houter hkind
    rw [←hptable,hparentIds] at hfinal
    refine mem_closeOver.mpr ⟨⟨final,hfinal,?_,?_⟩,id,hid,hfree,rfl⟩
    · rw [isClosed,hfkind]
      simpa using hkind
    · exact hfname.trans (hsame.trans hname)
  have heq := scopeComputeThings_eq hfunc hids hready hnodup hclosed
  rw [hsome,heq] at htable
  have hpushed : pushed (computeAll state) scope ((computeAll state).table j).ids=
      closeOver parent ids := by
    have hmodule : ((computeAll state).scopes[p]?).map Scope.kind=some other.kind := by
      rw [computeAll,computeThings_scopes,hother]
      rfl
    rw [pushed,hancestors]
    dsimp only
    rw [hmodule,hparentIds,htable]
    dsimp only
    rw [closeOver_map]
    split
    case isFalse => rfl
    case isTrue hkind =>
      refine (eq_nil_iff_forall_not_mem.mpr fun x hx => ?_).symm
      obtain ⟨_,id,hid,hfree,_⟩ := mem_closeOver.mp hx
      obtain ⟨id',hid',_,hfree'⟩ := horigin id hid hfree
      exact (hparent id' hid' hfree').1 (Option.some.inj hkind)
  rw [hpushed,htable]
  refine ⟨hready,?_,rfl,?_,hok.numKwonlyArgs,hok.varargs,Nat.add_comm _ _⟩
  · refine (perm_ext_iff_of_nodup (nodup_namesOf _ hready.nodup)
      (nodup_closeOver hnodup hready.nodup)).mpr fun x => ⟨fun hx => ?_,fun hx => ?_⟩
    · obtain ⟨id,hid,rfl⟩ := mem_map.mp hx
      obtain ⟨hmem,hfree⟩ := mem_filter.mp hid
      exact hclosed id hmem (by simpa using hfree)
    · obtain ⟨_,id,hid,hfree,rfl⟩ := mem_closeOver.mp hx
      exact mem_map_of_mem (mem_filter.mpr ⟨hid,by simpa using hfree⟩)
  · rw [hok.numPosArgs,Nat.add_comm]

/-! ## The layout of a function -/

/-- For every module, the numbers of a function in it are those that its closure, its call and
its prelude rely on just when its arguments fit. -/
theorem computeAll_layout_iff {body : List Item} {state : State} {j : ℕ} {scope : Scope}
    (h : scopePass body=.ok state) (hscope : state.scopes[j]?=some scope)
    (hfunc : scope.kind.isFuncLike=true) :
    Layout (signatureOf scope) (pushed (computeAll state) scope ((computeAll state).table j).ids)
      ((computeAll state).table j)↔Fits (signatureOf scope) (state.table j) := by
  obtain ⟨hordered,_⟩ := scopePass_ordered h
  have hok := hordered.tables j scope (List.getElem?_eq_some_iff.mp hscope).1 hscope
  have hnumbered := numbered_of_scopePass h hscope hfunc
  have hcount : freeCount (state.table j)=
      (pushed (computeAll state) scope ((computeAll state).table j).ids).length := by
    have hfree : (fun id : IdInfo => decide (id.kind=.free))∘explicitGlobal scope.kind=
        fun id => decide (id.kind=.free) := funext fun id =>
      decide_eq_decide.mpr (explicitGlobal_kind scope.kind id (.inr (.inr rfl)))
    rw [←hnumbered.frees.length_eq,namesOf,names,List.length_map,List.filter_map,hfree,
      List.length_map,freeCount]
    exact ((moveStar_perm hok).filter _).length_eq.symm
  have hcell : ∀ x,IsCell ((moveStar (state.table j)).map (explicitGlobal scope.kind)) x↔
      (scopeFind (state.table j).ids x).map IdInfo.kind=some .cell := by
    intro x
    constructor
    · rintro ⟨id,hid,rfl,hkind⟩
      obtain ⟨id',hid',rfl⟩ := List.mem_map.mp hid
      have hmem := (moveStar_perm hok).mem_iff.mp hid'
      rw [(explicitGlobal_qst scope.kind id').1,scopeFind_of_mem hok.nodup hmem]
      exact congrArg some ((explicitGlobal_kind scope.kind id' (.inr (.inl rfl))).mp hkind)
    · intro hfound
      obtain ⟨id,hfind,hkind⟩ := Option.map_eq_some_iff.mp hfound
      obtain ⟨hmem,hname⟩ := scopeFind_some hfind
      refine ⟨explicitGlobal scope.kind id,
        List.mem_map_of_mem ((moveStar_perm hok).mem_iff.mpr hmem),?_,?_⟩
      · exact (explicitGlobal_qst scope.kind id).1.trans hname
      · exact (explicitGlobal_kind scope.kind id (.inr (.inl rfl))).mpr hkind
  rw [hnumbered.layout_iff,←hcount]
  constructor
  · rintro ⟨hpos,hkwonly,hcells⟩
    exact ⟨hpos,hkwonly,fun k x hk hkind => hcells k x hk ((hcell x).mpr hkind)⟩
  · rintro ⟨hpos,hkwonly,hcells⟩
    exact ⟨hpos,hkwonly,fun k x hk hkind => hcells k x hk ((hcell x).mp hkind)⟩

/-- A function with a parameter that an inner function uses, a keyword-only parameter and a
starred one. -/
def closureBody : List Item :=
  [.scope (.function [.plain ⟨"x",by decide⟩,.star ⟨"args",by decide⟩,.plain ⟨"key",by decide⟩])
    [.scope (.function []) [.load ⟨"x",by decide⟩],.store ⟨"f",by decide⟩]]

/-- The numbers of an outer and of an inner function. -/
theorem closureBody_layout : ∃ state outer inner,scopePass closureBody=.ok state∧
    state.scopes[1]?=some outer∧state.scopes[2]?=some inner∧(Layout (signatureOf outer)
        (pushed (computeAll state) outer ((computeAll state).table 1).ids)
        ((computeAll state).table 1)↔Fits (signatureOf outer) (state.table 1))∧
      (Layout (signatureOf inner) (pushed (computeAll state) inner ((computeAll state).table 2).ids)
        ((computeAll state).table 2)↔Fits (signatureOf inner) (state.table 2)) :=
  ⟨_,_,_,rfl,rfl,rfl,@computeAll_layout_iff closureBody _ 1 _ rfl rfl rfl,
    @computeAll_layout_iff closureBody _ 2 _ rfl rfl rfl⟩

/-- Parameters with different names are added. -/
theorem compileParams_ok {xs : List Name} {i : ℕ} {state : State}
    (hnodup : (names (state.table i).ids++xs.map Subtype.val).Nodup)
    (hshort : (state.table i).ids.length+xs.length ≤ maxIds)
    (hvarkeywords : (state.table i).varkeywords=false) :
    ∃ state',compileParams i state false (xs.map .plain)=.ok state'∧state'.scopes=state.scopes := by
  induction xs generalizing state with
  | nil => exact ⟨state,rfl,rfl⟩
  | cons x xs ih =>
    obtain ⟨t,ht⟩ : ∃ t,t={state.table i with numPosArgs := (state.table i).numPosArgs+1} :=
      ⟨_,rfl⟩
    have hids : t.ids=(state.table i).ids := by rw [ht]
    have hfresh : scopeFind t.ids x.1=none := by
      rw [hids,scopeFind_eq_none]
      intro id hid hname
      exact (nodup_append.mp hnodup).2.2 _ (mem_map_of_mem hid) x.1 mem_cons_self hname
    have hroom : t.ids.length < maxIds := by
      rw [length_cons] at hshort
      rw [hids]
      omega
    obtain ⟨next,hnext⟩ : ∃ next,next=(state.setTable i t).setTable i
        {t with ids := t.ids++[⟨x.1,.local,.param,0⟩]} := ⟨_,rfl⟩
    have hadd : addParam (state.setTable i t) i x .param=.ok next := by
      rw [addParam,State.setTable_self,hfresh]
      rw [State.addId,State.setTable_self,if_pos hroom,hnext]
    have hparam : compileParam state i false (.plain x)=.ok (next,false) := by
      rw [compileParam,hvarkeywords,if_neg Bool.false_ne_true,newParam]
      dsimp only
      rw [if_neg Bool.false_ne_true,←ht,hadd]
      rfl
    have htable : (next.table i).ids=(state.table i).ids++[⟨x.1,.local,.param,0⟩] := by
      rw [hnext,State.setTable_self,hids]
    obtain ⟨state',hrest,hscopes⟩ := @ih next (by simpa [htable,names] using hnodup)
      (by simpa [htable,Nat.add_assoc,Nat.add_comm 1] using hshort)
      (by rw [hnext,State.setTable_self,ht]; exact hvarkeywords)
    refine ⟨state',?_,hscopes.trans (by rw [hnext]; rfl)⟩
    rw [map_cons,compileParams,hparam]
    exact hrest

/-- A function with positional parameters that have different names is compiled. -/
theorem scopePass_function {xs : List Name} (hnodup : (xs.map Subtype.val).Nodup)
    (hshort : xs.length ≤ maxIds) : ∃ state,
      scopePass [.scope (.function (xs.map .plain)) []]=.ok state∧
        state.scopes[1]?=some ⟨.function,xs.map .plain,[0],[]⟩ := by
  obtain ⟨state',hparams,hscopes⟩ := @compileParams_ok xs 1
    ⟨[⟨.module,[],[],[.scope (.function (xs.map .plain)) []]⟩,
      ⟨.function,xs.map .plain,[0],[]⟩],fun _ => .empty⟩
    (by simpa [Table.empty,names] using hnodup) (by simpa [Table.empty] using hshort) rfl
  refine ⟨state',?_,by rw [hscopes]; rfl⟩
  have hend : ∀ c,compileScopes c 2 state'=.ok state' := by
    intro c
    have hnone : state'.scopes[2]?=none := by
      rw [hscopes]
      rfl
    cases c with
    | zero => rfl
    | succ c => rw [compileScopes,hnone]
  have hscope : compileScope ⟨[⟨.module,[],[],[.scope (.function (xs.map .plain)) []]⟩,
      ⟨.function,xs.map .plain,[0],[]⟩],fun _ => .empty⟩ 1 ⟨.function,xs.map .plain,[0],[]⟩=
        .ok state' := by
    rw [compileScope,compileStart]
    rw [hparams]
    rfl
  obtain ⟨c,hcount⟩ : ∃ c,ScopePass.scopeCounts
      (itemUses [.scope (.function (xs.map .plain)) []])=c+1 := ⟨_,rfl⟩
  rw [scopePass,hcount]
  exact (congrArg (Except.bind · (compileScopes c 2)) hscope).trans (hend c)

theorem signature_plain (xs : List Name) :
    (signature false (xs.map .plain)).pos=xs.map Subtype.val := by
  induction xs with
  | nil => rfl
  | cons x xs ih =>
    rw [map_cons,signature]
    exact congrArg (x.1::·) ih

/-- The name of a parameter. -/
def aName (n : ℕ) : Name := ⟨String.ofList (List.replicate (n+1) 'a'),by simp⟩

/-- A function with 256 positional parameters. -/
def manyParams : List Item := [.scope (.function (((List.range 256).map aName).map .plain)) []]

/-- Its numbers are not those of its calls. -/
theorem manyParams_wrap : ∃ state scope,scopePass manyParams=.ok state∧
    state.scopes[1]?=some scope∧scope.kind=.function∧(signatureOf scope).pos.length=256∧
      ¬Layout (signatureOf scope) (pushed (computeAll state) scope ((computeAll state).table 1).ids)
        ((computeAll state).table 1) := by
  obtain ⟨xs,hxs⟩ : ∃ xs,xs=(List.range 256).map aName := ⟨_,rfl⟩
  have hlength : xs.length=256 := by simp [hxs]
  have hnodup : (xs.map Subtype.val).Nodup := by
    rw [hxs,List.map_map]
    refine List.nodup_range.map fun n m hsame => ?_
    have hlists := congrArg (fun x : String => x.toList.length) hsame
    simpa [aName] using hlists
  obtain ⟨state,hpass,hscope⟩ := scopePass_function hnodup (hlength ▸ (by decide : 256≤65531))
  have hpos : (signatureOf ⟨.function,xs.map .plain,[0],[]⟩).pos.length=256 := by
    simp [signatureOf,signature_plain,hlength]
  refine ⟨state,_,?_,hscope,rfl,hpos,fun hlayout => ?_⟩
  · rw [manyParams,←hxs]
    exact hpass
  have hbyte : nPosArgs ((computeAll state).table 1) < 256 := Nat.mod_lt _ (by decide)
  rw [hlayout.nPosArgs,hpos] at hbyte
  omega

end MicroPython.ScopeLayout
