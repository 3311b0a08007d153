import MicroPython.IdTables

/-!
# What the tables of identifiers hold

The table of a function begins with its parameters, that of a comprehension with its iterator
and that of a class with `__class__`. The identifiers after them have no flags, all names are
different, and parameters are locals or cells. The pass keeps this of every scope, whatever
inner scopes close over.
-/

namespace MicroPython.IdOrder

open Nat List

open ScopePass (IdKind ScopeKind Progress pending scopeCounts compileScope_progress
  pending_newScopes initial_progress State.at)
open IdTables

/-! ## Signatures -/

/-- How the parameters of a function take arguments. -/
structure Signature where
  pos : List String
  /-- `*args` -/
  star : Option String
  /-- Keyword-only parameters. -/
  kwonly : List String
  /-- `**kwargs` -/
  dblStar : Option String

/-- No parameters. -/
def Signature.none : Signature := ⟨[],.none,[],.none⟩

/-- The signature of parameters, after a star or not. -/
def signature : Bool→List Param→Signature
  | _,[] => .none
  | haveStar,param::params =>
    match param with
    | .plain x =>
      let rest := signature haveStar params
      if haveStar=true then {rest with kwonly := x.1::rest.kwonly}
      else {rest with pos := x.1::rest.pos}
    | .star x => {signature true params with star := some x.1}
    | .bareStar => signature true params
    | .dblStar x => {signature haveStar params with dblStar := some x.1}

/-- The parameters with their flags, as they are written. -/
def Signature.entries (sig : Signature) : List (String×Flags) :=
  sig.pos.map (·,Flags.param)++(sig.star.toList.map (·,Flags.starParam)++
    (sig.kwonly.map (·,Flags.param)++sig.dblStar.toList.map (·,Flags.dblStarParam)))

/-- The signature of a scope. A comprehension takes its iterator. -/
def signatureOf (scope : Scope) : Signature :=
  match scope.kind with
  | .function | .lambda => signature false scope.params
  | .module | .classDef => .none
  | _ => {Signature.none with pos := [""]}

/-- The identifiers that come first in the table of a scope. -/
def firstEntries (scope : Scope) : List (String×Flags) :=
  match scope.kind with
  | .function | .lambda => (signature false scope.params).entries
  | .module => []
  | .classDef => [("__class__",.none)]
  | _ => [("",.none)]

/-! ## Tables -/

/-- An identifier with its flags. -/
def entry (id : IdInfo) : String×Flags := (id.qst,id.flags)

/-- Parameters are locals or cells, and the iterator of a comprehension is a local. -/
def Settled (id : IdInfo) : Prop :=
  (id.flags≠.none → id.kind=.local∨id.kind=.cell)∧(id.qst="" → id.kind=.local)

/-- The names of identifiers. -/
def names (ids : List IdInfo) : List String := ids.map IdInfo.qst

/-- A table and what becomes of it: identifiers without flags are added. -/
structure Evolves (t t' : Table) : Prop where
  /-- Identifiers stay where they are, and those that are added have no flags. -/
  entries : ∃ extra : List String,t'.ids.map entry=t.ids.map entry++extra.map (·,Flags.none)∧
    ""∉extra
  /-- Names stay different. -/
  nodup : (names t.ids).Nodup → (names t'.ids).Nodup
  /-- The array is large enough. -/
  short : t.ids.length ≤ maxIds → t'.ids.length ≤ maxIds
  /-- Parameters stay locals or cells. -/
  settled : (∀ id∈t.ids,Settled id) → ∀ id∈t'.ids,Settled id
  args : t'.numPosArgs=t.numPosArgs∧t'.numKwonlyArgs=t.numKwonlyArgs∧t'.varargs=t.varargs∧
    t'.varkeywords=t.varkeywords

/-- The table of a scope is in order. -/
structure TableOk (scope : Scope) (t : Table) : Prop where
  /-- What comes first, and then identifiers without flags. -/
  entries : ∃ extra : List String,t.ids.map entry=firstEntries scope++extra.map (·,Flags.none)∧
    ""∉extra
  nodup : (names t.ids).Nodup
  /-- The array is large enough. -/
  short : t.ids.length ≤ maxIds
  /-- Parameters are locals or cells. -/
  settled : ∀ id∈t.ids,Settled id
  /-- The positional parameters are counted. -/
  numPosArgs : t.numPosArgs=(signatureOf scope).pos.length
  /-- So are the keyword-only parameters. -/
  numKwonlyArgs : t.numKwonlyArgs=(signatureOf scope).kwonly.length
  /-- The flags of the scope are set. -/
  varargs : t.varargs=(signatureOf scope).star.isSome
  /-- So is the other one. -/
  varkeywords : t.varkeywords=(signatureOf scope).dblStar.isSome

variable {t t' t'' : Table} {ids : List IdInfo} {scope : Scope} {x : String} {kind : IdKind}
variable {state state' mid : State} {i done : ℕ} {ancestors : List ℕ}

/-- Nothing happens. -/
theorem Evolves.refl (t : Table) : Evolves t t :=
  ⟨⟨[],by simp,not_mem_nil⟩,id,id,fun h => h,rfl,rfl,rfl,rfl⟩

/-- One thing happens after another. -/
theorem Evolves.trans (h : Evolves t t') (h' : Evolves t' t'') : Evolves t t'' := by
  obtain ⟨extra,hentries,hblank⟩ := h.entries
  obtain ⟨extra',hentries',hblank'⟩ := h'.entries
  refine ⟨⟨extra++extra',?_,?_⟩,fun hn => h'.nodup (h.nodup hn),fun hs => h'.short (h.short hs),
    fun hs => h'.settled (h.settled hs),?_⟩
  · rw [hentries',hentries,map_append,append_assoc]
  · rw [mem_append,not_or]
    exact ⟨hblank,hblank'⟩
  · obtain ⟨h1,h2,h3,h4⟩ := h.args
    obtain ⟨h1',h2',h3',h4'⟩ := h'.args
    exact ⟨h1'.trans h1,h2'.trans h2,h3'.trans h3,h4'.trans h4⟩

/-- A table in order stays so. -/
theorem TableOk.evolves (h : TableOk scope t) (he : Evolves t t') : TableOk scope t' := by
  obtain ⟨extra,hentries,hblank⟩ := h.entries
  obtain ⟨extra',hentries',hblank'⟩ := he.entries
  obtain ⟨h1,h2,h3,h4⟩ := he.args
  refine ⟨⟨extra++extra',?_,?_⟩,he.nodup h.nodup,he.short h.short,he.settled h.settled,
    h1.trans h.numPosArgs,h2.trans h.numKwonlyArgs,h3.trans h.varargs,h4.trans h.varkeywords⟩
  · rw [hentries',hentries,map_append,append_assoc]
  · rw [mem_append,not_or]
    exact ⟨hblank,hblank'⟩

/-- Setting a kind keeps names and flags. -/
theorem entries_setKind (x : String) (kind : IdKind) (ids : List IdInfo) :
    (setKind x kind ids).map entry=ids.map entry := by
  induction ids with
  | nil => rfl
  | cons id ids ih =>
    rw [setKind]
    split
    · rfl
    · rw [map_cons,map_cons,ih]

theorem names_eq (ids : List IdInfo) : names ids=(ids.map entry).map Prod.fst := by
  rw [names,map_map]
  rfl

/-- Setting a kind changes no identifier but one with the name. -/
theorem mem_setKind {id : IdInfo} (h : id∈setKind x kind ids) :
    id∈ids∨∃ old∈ids,old.qst=x∧id={old with kind := kind} := by
  induction ids with
  | nil => exact .inl h
  | cons old ids ih =>
    rw [setKind] at h
    split at h
    case isTrue hx =>
      rcases mem_cons.mp h with hsame | hrest
      · exact .inr ⟨old,mem_cons_self,hx,hsame⟩
      · exact .inl (mem_cons_of_mem _ hrest)
    case isFalse =>
      rcases mem_cons.mp h with hsame | hrest
      · exact .inl (hsame ▸ mem_cons_self)
      · rcases ih hrest with hmem | ⟨old',hmem,hrest⟩
        · exact .inl (mem_cons_of_mem _ hmem)
        · exact .inr ⟨old',mem_cons_of_mem _ hmem,hrest⟩

/-! ## Steps of the pass -/

/-- What a use of names does to the tables of the scopes that were started before. -/
structure Step (done : ℕ) (state state' : State) : Prop where
  scopes : state'.scopes=state.scopes
  tables : ∀ j,Evolves (state.table j) (state'.table j)
  /-- Those of scopes to come stay. -/
  fresh : ∀ j,done≤j → state'.table j=state.table j

/-- Nothing happens. -/
theorem Step.refl (done : ℕ) (state : State) : Step done state state :=
  ⟨rfl,fun _ => .refl _,fun _ _ => rfl⟩

/-- One step comes after another. -/
theorem Step.trans (h : Step done state mid) (h' : Step done mid state') : Step done state state' :=
  ⟨h'.scopes.trans h.scopes,fun j => (h.tables j).trans (h'.tables j),
    fun j hj => (h'.fresh j hj).trans (h.fresh j hj)⟩

theorem Step.setTable (hi : i < done) (he : Evolves (state.table i) t) :
    Step done state (state.setTable i t) := by
  refine ⟨rfl,fun j => ?_,fun j hj => State.setTable_of_ne _ _ (by omega)⟩
  by_cases hj : j=i
  · subst hj
    simpa using he
  · rw [State.setTable_of_ne _ _ hj]
    exact .refl _

/-- An identifier is found, or its kind is set, when this leaves parameters locals or
cells. -/
theorem putKind_step (hi : i < done) (hx : x≠"")
    (hkind : (kind=.local∨kind=.cell)∨∀ id∈(state.table i).ids,id.qst=x → id.flags=.none)
    (h : state.putKind i x kind=.ok state') : Step done state state' := by
  rw [State.putKind] at h
  split at h
  case h_1 hnone =>
    rw [scopeFind_eq_none] at hnone
    rw [State.addId] at h
    split at h
    case isFalse => cases h
    case isTrue hroom =>
      cases h
      refine Step.setTable hi ⟨⟨[x],?_,?_⟩,fun hnodup => ?_,fun _ => ?_,fun hs id hid => ?_,
        rfl,rfl,rfl,rfl⟩
      · simp [entry]
      · simpa using Ne.symm hx
      · rw [names,map_append]
        refine hnodup.append (nodup_singleton x) ?_
        simpa [names] using hnone
      · rw [length_append]
        exact hroom
      · rcases mem_append.mp hid with hold | hnew
        · exact hs id hold
        · rw [mem_singleton.mp hnew]
          exact ⟨fun hflags => absurd rfl hflags,fun hblank => absurd hblank hx⟩
  case h_2 =>
    cases h
    refine Step.setTable hi ⟨⟨[],?_,not_mem_nil⟩,?_,?_,fun hs id hid => ?_,rfl,rfl,rfl,rfl⟩
    · simpa using entries_setKind x kind _
    · rw [names_eq,names_eq,entries_setKind]
      exact fun hn => hn
    · have hlength := congrArg List.length (entries_setKind x kind (state.table i).ids)
      rw [length_map,length_map] at hlength
      rw [hlength]
      exact fun hs => hs
    · rcases mem_setKind hid with hold | ⟨old,hold,hname,rfl⟩
      · exact hs id hold
      · refine ⟨fun hflags => ?_,fun hblank => absurd (hname.symm.trans hblank) hx⟩
        rcases hkind with hvar | hnone
        · exact hvar
        · exact absurd (hnone old hold hname) hflags

/-- What is found is there. -/
theorem scopeFind_some {id : IdInfo} (h : scopeFind ids x=some id) : id∈ids∧id.qst=x := by
  rw [scopeFind] at h
  exact ⟨mem_of_find?_eq_some h,by simpa using List.find?_some h⟩

/-- A name that a table does not have. -/
theorem not_mem_of_kindOf (h : state.kindOf i x=none) :
    ∀ id∈(state.table i).ids,id.qst=x → id.flags=.none := by
  intro id hid hname
  have hnone : scopeFind (state.table i).ids x=none := by
    simpa [State.kindOf] using h
  exact absurd hname (scopeFind_eq_none.mp hnone id hid)

/-- `scope_close_over_in_parents` -/
theorem closeOverInParents_step (hx : x≠"") (hancestors : ∀ a∈ancestors,a < done)
    (h : closeOverInParents state x ancestors=.ok state') : Step done state state' := by
  induction ancestors generalizing state with
  | nil =>
    cases h
    exact .refl done _
  | cons s rest ih =>
    have hs := hancestors s mem_cons_self
    have hrest := fun a ha => hancestors a (mem_cons_of_mem s ha)
    rw [closeOverInParents] at h
    cases hcase : state.kindOf s x with
    | none =>
      simp only [hcase] at h
      obtain ⟨mid,hput,hmore⟩ := bind_ok h
      exact (putKind_step hs hx (.inr (not_mem_of_kindOf hcase)) hput).trans (ih hrest hmore)
    | some found =>
      cases found with
      | «local» =>
        simp only [hcase] at h
        exact putKind_step hs hx (.inl (.inr rfl)) h
      | _ =>
        simp only [hcase] at h
        cases h
        exact .refl done _

/-- `scope_find_local_and_close_over`, of a name that the table does not have. -/
theorem findLocalAndCloseOver_step (hi : i < done) (hx : x≠"")
    (hancestors : ∀ a∈ancestors,a < done) (hnone : state.kindOf i x=none)
    (h : findLocalAndCloseOver state ancestors i x=.ok state') : Step done state state' := by
  rw [findLocalAndCloseOver] at h
  split at h
  case isTrue =>
    obtain ⟨mid,hput,hrest⟩ := bind_ok h
    exact (putKind_step hi hx (.inr (not_mem_of_kindOf hnone)) hput).trans
      (closeOverInParents_step hx hancestors hrest)
  case isFalse => exact putKind_step hi hx (.inr (not_mem_of_kindOf hnone)) h

/-- `mp_emit_common_get_id_for_load` -/
theorem getIdForLoad_step (hi : i < done) (hx : x≠"") (hancestors : ∀ a∈ancestors,a < done)
    (h : getIdForLoad state ancestors i x=.ok state') : Step done state state' := by
  rw [getIdForLoad] at h
  cases hcase : state.kindOf i x with
  | none =>
    simp only [hcase] at h
    exact findLocalAndCloseOver_step hi hx hancestors hcase h
  | some found =>
    simp only [hcase] at h
    cases h
    exact .refl done _

/-- `mp_emit_common_get_id_for_modification` -/
theorem getIdForModification_step {scope : ScopeKind} (hi : i < done) (hx : x≠"")
    (h : getIdForModification state scope i x=.ok state') : Step done state state' := by
  rw [getIdForModification] at h
  cases hcase : state.kindOf i x with
  | none =>
    simp only [hcase] at h
    exact putKind_step hi hx (.inr (not_mem_of_kindOf hcase)) h
  | some found =>
    cases found with
    | globalImplicit =>
      simp only [hcase] at h
      split at h
      · exact putKind_step hi hx (.inl (.inl rfl)) h
      · cases h
        exact .refl done _
    | _ =>
      simp only [hcase] at h
      cases h
      exact .refl done _

/-- An identifier that is neither a local nor a cell has no flags. -/
theorem flags_of_kindOf (hnodup : (names (state.table i).ids).Nodup)
    (hsettled : ∀ id∈(state.table i).ids,Settled id)
    (h : state.kindOf i x=some .globalExplicit) :
    ∀ id∈(state.table i).ids,id.qst=x → id.flags=.none := by
  intro id hid hname
  obtain ⟨found,hfound,hkind⟩ := Option.map_eq_some_iff.mp h
  obtain ⟨hmem,hname'⟩ := scopeFind_some hfound
  have hsame : id=found :=
    inj_on_of_nodup_map hnodup hid hmem (hname.trans hname'.symm)
  by_contra hflags
  rw [hsame] at hflags
  rcases (hsettled found hmem).1 hflags with hlocal | hcell
  · rw [hkind] at hlocal
    cases hlocal
  · rw [hkind] at hcell
    cases hcell

/-- `compile_declare_global`, when the outermost scope has no flags in its table. -/
theorem declareGlobal_step (hi : i < done) (hx : x≠"") (hm : ancestors.getLastD i < done)
    (hnodup : (names (state.table i).ids).Nodup)
    (hsettled : ∀ id∈(state.table i).ids,Settled id)
    (hmodule : ∀ id∈(state.table (ancestors.getLastD i)).ids,id.flags=.none)
    (h : declareGlobal state ancestors i x=.ok state') : Step done state state' := by
  have hboth : ∀ {mid},(∀ id∈(state.table i).ids,id.qst=x → id.flags=.none) →
      state.putKind i x .globalExplicit=.ok mid →
      declareInModule mid (ancestors.getLastD i) x=.ok state' → Step done state state' := by
    intro mid hnone hput hdeclare
    have hfirst := putKind_step hi hx (.inr hnone) hput
    refine hfirst.trans ?_
    rw [declareInModule] at hdeclare
    split at hdeclare
    · cases hdeclare
      exact .refl done _
    · refine putKind_step hm hx (.inr fun id hid _ => ?_) hdeclare
      obtain ⟨extra,hentries,_⟩ := (hfirst.tables (ancestors.getLastD i)).entries
      have hentry : entry id∈(mid.table (ancestors.getLastD i)).ids.map entry :=
        mem_map_of_mem hid
      rw [hentries] at hentry
      rcases mem_append.mp hentry with hold | hnew
      · obtain ⟨old,hold,hsame⟩ := mem_map.mp hold
        exact (congrArg Prod.snd hsame).symm.trans (hmodule old hold)
      · obtain ⟨y,_,hsame⟩ := mem_map.mp hnew
        exact (congrArg Prod.snd hsame).symm
  rw [declareGlobal] at h
  cases hcase : state.kindOf i x with
  | none =>
    simp only [hcase] at h
    obtain ⟨mid,hput,hrest⟩ := bind_ok h
    exact hboth (not_mem_of_kindOf hcase) hput hrest
  | some found =>
    cases found with
    | globalExplicit =>
      simp only [hcase] at h
      obtain ⟨mid,hput,hrest⟩ := bind_ok h
      exact hboth (flags_of_kindOf hnodup hsettled hcase) hput hrest
    | _ =>
      simp only [hcase] at h
      cases h

/-- `compile_declare_nonlocal` -/
theorem declareNonlocal_step {scope : ScopeKind} (hi : i < done) (hx : x≠"")
    (hancestors : ∀ a∈ancestors,a < done)
    (h : declareNonlocal state scope ancestors i x=.ok state') : Step done state state' := by
  rw [declareNonlocal] at h
  split at h
  case isTrue => cases h
  case isFalse =>
    cases hcase : state.kindOf i x with
    | none =>
      simp only [hcase] at h
      obtain ⟨mid,hfind,hrest⟩ := bind_ok h
      split at hrest
      · cases hrest
      · cases hrest
        exact findLocalAndCloseOver_step hi hx hancestors hcase hfind
    | some found =>
      cases found with
      | free =>
        simp only [hcase] at h
        cases h
        exact .refl done _
      | _ =>
        simp only [hcase] at h
        cases h

/-! ## Parameters -/

/-- The identifier of a parameter with a name. -/
def paramId : Param→Option IdInfo
  | .plain x => some ⟨x.1,.local,.param,0⟩
  | .star x => some ⟨x.1,.local,.starParam,0⟩
  | .bareStar => none
  | .dblStar x => some ⟨x.1,.local,.dblStarParam,0⟩

/-- Parameters after this one are keyword-only. -/
def isStar : Param→Bool
  | .star _ | .bareStar => true
  | _ => false

/-- What is counted for a parameter. -/
def counted (haveStar : Bool) (t : Table) : Param→Table
  | .plain _ =>
    if haveStar=true then {t with numKwonlyArgs := t.numKwonlyArgs+1}
    else {t with numPosArgs := t.numPosArgs+1}
  | .star _ => {t with varargs := true}
  | .bareStar => t
  | .dblStar _ => {t with varkeywords := true}

/-- What a parameter does to the table of a scope, after a star or not. -/
structure ParamAdded (i : ℕ) (haveStar : Bool) (param : Param) (state state' : State) : Prop where
  scopes : state'.scopes=state.scopes
  others : ∀ j,j≠i → state'.table j=state.table j
  table : state'.table i={counted haveStar (state.table i) param with
    ids := (state.table i).ids++(paramId param).toList}
  /-- Names stay different. -/
  nodup : (names (state.table i).ids).Nodup →
    (names ((state.table i).ids++(paramId param).toList)).Nodup
  /-- The array is large enough. -/
  short : (state.table i).ids.length ≤ maxIds →
    ((state.table i).ids++(paramId param).toList).length ≤ maxIds
  /-- There were not two stars before. -/
  notLast : (state.table i).varkeywords=false
  oneStar : haveStar=true → isStar param=false

/-- The table has all but the identifiers of another. -/
theorem addParam_added {x : Name} {flags : Flags} (ht : t.ids=(state.table i).ids)
    (h : addParam (state.setTable i t) i x flags=.ok state') :
    state'.scopes=state.scopes∧(∀ j,j≠i → state'.table j=state.table j)∧
      state'.table i={t with ids := (state.table i).ids++[⟨x.1,.local,flags,0⟩]}∧
      ((names (state.table i).ids).Nodup →
        (names ((state.table i).ids++[⟨x.1,.local,flags,0⟩])).Nodup)∧
      ((state.table i).ids++[(⟨x.1,.local,flags,0⟩ : IdInfo)]).length ≤ maxIds := by
  rw [addParam,State.addId,State.setTable_self,ht] at h
  split at h
  case h_1 => cases h
  case h_2 hnone =>
    split at h
    case isFalse => cases h
    case isTrue hroom =>
      cases h
      refine ⟨rfl,fun j hj => ?_,?_,fun hn => ?_,?_⟩
      · simp [State.setTable_of_ne _ _ hj]
      · simp
      · simpa [names,nodup_append] using ⟨hn,scopeFind_eq_none.mp hnone⟩
      · rw [length_append]
        exact hroom

/-- A parameter. -/
theorem compileParam_added {haveStar haveStar' : Bool} {param : Param}
    (h : compileParam state i haveStar param=.ok (state',haveStar')) :
    ParamAdded i haveStar param state state'∧haveStar'=(haveStar||isStar param) := by
  rw [compileParam] at h
  split at h
  case isTrue => cases h
  case isFalse hlast =>
    rw [Bool.not_eq_true] at hlast
    cases param with
    | plain x =>
      obtain ⟨mid,hadd,hsame⟩ := map_ok h
      cases hsame
      obtain ⟨hscopes,hothers,htable,hnodup,hshort⟩ :=
        addParam_added (by cases haveStar <;> rfl) hadd
      exact ⟨⟨hscopes,hothers,htable,hnodup,fun _ => hshort,hlast,fun _ => rfl⟩,
        (Bool.or_false _).symm⟩
    | star x =>
      rw [newParam] at h
      split at h
      case isTrue => cases h
      case isFalse hfirst =>
        obtain ⟨mid,hadd,hsame⟩ := map_ok h
        cases hsame
        obtain ⟨hscopes,hothers,htable,hnodup,hshort⟩ :=
          addParam_added (t := {state.table i with varargs := true}) rfl hadd
        exact ⟨⟨hscopes,hothers,htable,hnodup,fun _ => hshort,hlast,
          fun hset => absurd hset hfirst⟩,(Bool.or_true _).symm⟩
    | bareStar =>
      rw [newParam] at h
      split at h
      case isTrue => cases h
      case isFalse hfirst =>
        cases h
        refine ⟨⟨rfl,fun _ _ => rfl,?_,?_,?_,hlast,fun hset => absurd hset hfirst⟩,
          (Bool.or_true _).symm⟩
        · simp [counted,paramId]
        · simp [paramId]
        · simp [paramId]
    | dblStar x =>
      obtain ⟨mid,hadd,hsame⟩ := map_ok h
      cases hsame
      obtain ⟨hscopes,hothers,htable,hnodup,hshort⟩ :=
        addParam_added (t := {state.table i with varkeywords := true}) rfl hadd
      exact ⟨⟨hscopes,hothers,htable,hnodup,fun _ => hshort,hlast,fun _ => rfl⟩,
        (Bool.or_false _).symm⟩

/-- What parameters do to the table of a scope, after a star or not. -/
structure ParamsAdded (i : ℕ) (haveStar : Bool) (params : List Param) (state state' : State) :
    Prop where
  scopes : state'.scopes=state.scopes
  others : ∀ j,j≠i → state'.table j=state.table j
  ids : (state'.table i).ids=(state.table i).ids++params.filterMap paramId
  /-- Names stay different. -/
  nodup : (names (state.table i).ids).Nodup → (names (state'.table i).ids).Nodup
  /-- The array is large enough. -/
  short : (state.table i).ids.length ≤ maxIds → (state'.table i).ids.length ≤ maxIds
  numPosArgs : (state'.table i).numPosArgs=
    (state.table i).numPosArgs+(signature haveStar params).pos.length
  /-- So are keyword-only parameters. -/
  numKwonlyArgs : (state'.table i).numKwonlyArgs=
    (state.table i).numKwonlyArgs+(signature haveStar params).kwonly.length
  /-- A flag is set for a star parameter. -/
  varargs : (state'.table i).varargs=
    ((state.table i).varargs||(signature haveStar params).star.isSome)
  /-- So it is for a parameter with two stars. -/
  varkeywords : (state'.table i).varkeywords=
    ((state.table i).varkeywords||(signature haveStar params).dblStar.isSome)
  entries : (params.filterMap paramId).map entry=(signature haveStar params).entries
  /-- No positional parameters and no other star come after a star. -/
  afterStar : haveStar=true → (signature haveStar params).pos=[]∧
    (signature haveStar params).star=.none
  /-- Nothing comes after two stars. -/
  last : (state.table i).varkeywords=true → params=[]

/-- Parameters come after another. -/
theorem ParamAdded.cons {haveStar : Bool} {param : Param} {params : List Param}
    (h : ParamAdded i haveStar param state mid)
    (hrest : ParamsAdded i (haveStar||isStar param) params mid state') :
    ParamsAdded i haveStar (param::params) state state' := by
  have hids := hrest.ids
  have hnodup := hrest.nodup
  have hshort := hrest.short
  have hpos := hrest.numPosArgs
  have hkwonly := hrest.numKwonlyArgs
  have hvarargs := hrest.varargs
  have hvarkeywords := hrest.varkeywords
  have hentries := hrest.entries
  have hafter := hrest.afterStar
  have hlast := hrest.last
  rw [h.table] at hids hnodup hshort hpos hkwonly hvarargs hvarkeywords hlast
  have hcons : (param::params).filterMap paramId=
      (paramId param).toList++params.filterMap paramId := by
    cases hid : paramId param <;> simp [hid]
  refine ⟨hrest.scopes.trans h.scopes,fun j hj => (hrest.others j hj).trans (h.others j hj),?_,
    fun hn => hnodup (h.nodup hn),fun hs => hshort (h.short hs),?_,?_,?_,?_,?_,?_,
    fun hset => absurd (h.notLast.symm.trans hset) Bool.noConfusion⟩
  · rw [hids,hcons,append_assoc]
  · rw [hpos]
    cases param <;> cases haveStar <;> simp [counted,signature,isStar] <;> omega
  · rw [hkwonly]
    cases param <;> cases haveStar <;> simp [counted,signature,isStar] <;> omega
  · rw [hvarargs]
    cases param <;> cases haveStar <;> simp [counted,signature,isStar]
  · rw [hvarkeywords]
    cases param <;> cases haveStar <;> simp [counted,signature,isStar]
  · rw [hcons,map_append,hentries]
    cases param with
    | plain x =>
      cases haveStar with
      | true =>
        obtain ⟨hnone,hnone'⟩ := hafter rfl
        simp only [isStar,Bool.or_false] at hnone hnone'
        simp [signature,Signature.entries,isStar,paramId,entry,hnone,hnone']
      | false => simp [signature,Signature.entries,isStar,paramId,entry]
    | star x =>
      obtain ⟨hnone,hnone'⟩ := hafter (Bool.or_true _)
      simp only [isStar,Bool.or_true] at hnone hnone'
      simp [signature,Signature.entries,isStar,paramId,entry,hnone,hnone']
    | bareStar => simp [signature,isStar,paramId]
    | dblStar x =>
      have hnil : params=[] := hlast rfl
      subst hnil
      simp [signature,Signature.none,Signature.entries,paramId,entry]
  · intro hset
    subst hset
    have hnot := h.oneStar rfl
    obtain ⟨hnone,hnone'⟩ := hafter rfl
    cases param with
    | plain x => simpa [signature,isStar] using ⟨hnone,hnone'⟩
    | star x => cases hnot
    | bareStar => cases hnot
    | dblStar x => simpa [signature,isStar] using ⟨hnone,hnone'⟩

/-- The parameters after a star or not. -/
theorem compileParams_added {haveStar : Bool} {params : List Param}
    (h : compileParams i state haveStar params=.ok state') :
    ParamsAdded i haveStar params state state' := by
  induction params generalizing state haveStar with
  | nil =>
    cases h
    constructor <;> simp [signature,Signature.none,Signature.entries]
  | cons param params ih =>
    obtain ⟨⟨mid,haveStar'⟩,hparam,hrest⟩ := bind_ok h
    obtain ⟨hadded,rfl⟩ := compileParam_added hparam
    exact hadded.cons (ih hrest)

/-! ## The whole pass -/

/-- A kind of scope that is called with parameters. -/
def takesParams (kind : ScopeKind) : Prop := kind=.function∨kind=.lambda

/-- The state of the pass before a scope. -/
structure Ordered (done : ℕ) (state : State) : Prop where
  /-- The module comes first. -/
  root : ∃ body,state.scopes[0]?=some ⟨.module,[],[],body⟩
  /-- The parents of a scope come before it, and the last one is the module. -/
  chain : ∀ (j : ℕ) (scope : Scope),state.scopes[j]?=some scope →
    (∀ a∈scope.ancestors,a < j)∧scope.ancestors.getLastD j=0
  /-- Only functions have parameters. -/
  params : ∀ (j : ℕ) (scope : Scope),state.scopes[j]?=some scope →
    ¬takesParams scope.kind → scope.params=[]
  tables : ∀ (j : ℕ) (scope : Scope),j < done → state.scopes[j]?=some scope →
    TableOk scope (state.table j)
  fresh : ∀ j,done≤j → state.table j=.empty

/-- A step keeps the tables in order. -/
theorem Ordered.step (h : Ordered done state) (hstep : Step done state state') :
    Ordered done state' := by
  refine ⟨?_,?_,?_,fun j scope hj hscope => ?_,fun j hj => ?_⟩
  · rw [hstep.scopes]
    exact h.root
  · rw [hstep.scopes]
    exact h.chain
  · rw [hstep.scopes]
    exact h.params
  · rw [hstep.scopes] at hscope
    exact (h.tables j scope hj hscope).evolves (hstep.tables j)
  · rw [hstep.fresh j hj]
    exact h.fresh j hj

theorem Ordered.module_flags (h : Ordered done state) (hdone : 0 < done) :
    ∀ id∈(state.table 0).ids,id.flags=.none := by
  obtain ⟨body,hroot⟩ := h.root
  obtain ⟨extra,hentries,_⟩ := (h.tables 0 _ hdone hroot).entries
  intro id hid
  have hentry : entry id∈(state.table 0).ids.map entry := mem_map_of_mem hid
  rw [hentries] at hentry
  obtain ⟨y,_,hsame⟩ := mem_map.mp hentry
  exact (congrArg Prod.snd hsame).symm

/-- An item of a scope keeps the tables in order. -/
theorem runItem_ordered {item : Item} (h : Ordered (i+1) state)
    (hscope : state.scopes[i]?=some scope)
    (hrun : runItem scope.kind scope.ancestors i state item=.ok state') :
    Ordered (i+1) state'∧state'.scopes[i]?=some scope := by
  obtain ⟨hless,hlast⟩ := h.chain i scope hscope
  have hi := lt_succ_self i
  have hancestors : ∀ a∈scope.ancestors,a < i+1 := fun a ha => lt_succ_of_lt (hless a ha)
  have hkeep : Step (i+1) state state' → Ordered (i+1) state'∧state'.scopes[i]?=some scope :=
    fun hstep => ⟨h.step hstep,by rw [hstep.scopes]; exact hscope⟩
  cases item with
  | load x => exact hkeep (getIdForLoad_step hi x.2 hancestors hrun)
  | store x => exact hkeep (getIdForModification_step hi x.2 hrun)
  | delete x => exact hkeep (getIdForModification_step hi x.2 hrun)
  | global x =>
    have hok := h.tables i scope hi hscope
    refine hkeep (declareGlobal_step hi x.2 ?_ hok.nodup hok.settled ?_ hrun)
    · rw [hlast]
      exact succ_pos i
    · rw [hlast]
      exact h.module_flags (succ_pos i)
  | nonlocal x => exact hkeep (declareNonlocal_step hi x.2 hancestors hrun)
  | scope header body =>
    cases hrun
    have hlength := (List.getElem?_eq_some_iff.mp hscope).1
    have hat : ∀ {j : ℕ} {other : Scope},
        (state.scopes++[⟨header.kind,header.params,i::scope.ancestors,body⟩])[j]?=some other →
          state.scopes[j]?=some other∨j=state.scopes.length∧
            other=⟨header.kind,header.params,i::scope.ancestors,body⟩ := by
      intro j other hother
      rw [List.getElem?_append] at hother
      split at hother
      case isTrue => exact .inl hother
      case isFalse hj =>
        obtain ⟨hindex,hsame⟩ := List.getElem?_eq_some_iff.mp hother
        rw [length_singleton] at hindex
        have hzero : j=state.scopes.length := by omega
        refine .inr ⟨hzero,?_⟩
        subst hzero
        simpa using hsame.symm
    refine ⟨⟨?_,?_,?_,?_,h.fresh⟩,?_⟩
    · obtain ⟨root,hroot⟩ := h.root
      exact ⟨root,List.getElem?_append_left (List.getElem?_eq_some_iff.mp hroot).1 ▸ hroot⟩
    · intro j other hother
      rcases hat hother with hold | ⟨rfl,rfl⟩
      · exact h.chain j other hold
      · refine ⟨fun a ha => ?_,?_⟩
        · rcases mem_cons.mp ha with hsame | hmem
          · exact hsame ▸ hlength
          · exact Nat.lt_trans (hless a hmem) hlength
        · rw [getLastD_cons]
          exact hlast
    · intro j other hother hparams
      rcases hat hother with hold | ⟨rfl,rfl⟩
      · exact h.params j other hold hparams
      · cases header with
        | function params => exact absurd (.inl rfl) hparams
        | lambda params => exact absurd (.inr rfl) hparams
        | _ => rfl
    · intro j other hj hother
      rcases hat hother with hold | ⟨hsame,_⟩
      · exact h.tables j other hj hold
      · omega
    · exact (List.getElem?_append_left hlength).trans hscope

/-- The items of a scope keep the tables in order. -/
theorem runItems_ordered {items : List Item} (h : Ordered (i+1) state)
    (hscope : state.scopes[i]?=some scope)
    (hrun : runItems scope.kind scope.ancestors i state items=.ok state') :
    Ordered (i+1) state' := by
  induction items generalizing state with
  | nil =>
    cases hrun
    exact h
  | cons item items ih =>
    obtain ⟨mid,hitem,hrest⟩ := bind_ok hrun
    obtain ⟨hmid,hscope'⟩ := runItem_ordered h hscope hitem
    exact ih hmid hscope' hrest

/-- The first identifier of a table. -/
theorem putKind_empty (hempty : state.table i=.empty)
    (h : state.putKind i x .local=.ok state') : state'.scopes=state.scopes∧
      (∀ j,j≠i → state'.table j=state.table j)∧
      state'.table i={Table.empty with ids := [⟨x,.local,.none,0⟩]} := by
  have hnone : scopeFind Table.empty.ids x=none := rfl
  simp only [State.putKind,hnone,State.addId,hempty] at h
  split at h
  case isFalse => cases h
  case isTrue =>
    cases h
    refine ⟨rfl,fun j hj => ?_,?_⟩
    · exact State.setTable_of_ne _ _ hj
    · exact State.setTable_self _ _ _

section

variable (h : Ordered i state) (hscope : state.scopes[i]?=some scope)
include h hscope

/-- A scope is started: its table is in order, and nothing else changes or what changes is
a step. -/
theorem Ordered.started
    (hscopes : mid.scopes=state.scopes) (hothers : ∀ j,j≠i → mid.table j=state.table j)
    (htable : TableOk scope (mid.table i)) : Ordered (i+1) mid := by
  refine ⟨?_,?_,?_,fun j other hj hother => ?_,fun j hj => ?_⟩
  · rw [hscopes]
    exact h.root
  · rw [hscopes]
    exact h.chain
  · rw [hscopes]
    exact h.params
  · rw [hscopes] at hother
    by_cases hji : j=i
    · subst hji
      rw [hscope] at hother
      cases hother
      exact htable
    · rw [hothers j hji]
      exact h.tables j other (by omega) hother
  · rw [hothers j (by omega)]
    exact h.fresh j (by omega)

/-- The start of a scope puts its table in order. -/
theorem compileStart_ordered
    (hstart : compileStart state i scope=.ok state') :
    Ordered (i+1) state'∧state'.scopes=state.scopes := by
  have hempty := h.fresh i (Nat.le_refl i)
  have hless := (h.chain i scope hscope).1
  have hancestors : ∀ a∈scope.ancestors,a < i+1 := fun a ha => lt_succ_of_lt (hless a ha)
  have hi := lt_succ_self i
  obtain ⟨kind,params,ancestors,items⟩ := scope
  have hfunction : ∀ {kind},(kind=.function∨kind=.lambda) →
      state.scopes[i]?=some ⟨kind,params,ancestors,items⟩ →
      compileParams i state false params=.ok state' →
        Ordered (i+1) state'∧state'.scopes=state.scopes := by
    intro kind hkind hscope hparams
    have hadded := compileParams_added hparams
    obtain ⟨hscopes,hothers,hids,hnodup,hshort,hpos,hkwonly,hvarargs,hvarkeywords,hentries,_⟩ :=
      hadded
    rw [hempty] at hids hnodup hshort hpos hkwonly hvarargs hvarkeywords
    simp only [Table.empty,nil_append,Nat.zero_add] at hids hpos hkwonly
    refine ⟨h.started hscope hscopes hothers ⟨⟨[],?_,not_mem_nil⟩,hnodup nodup_nil,
      hshort (zero_le _),fun id hid => ?_,?_,?_,?_,?_⟩,hscopes⟩
    · rw [hids,hentries]
      rcases hkind with rfl | rfl <;> simp [firstEntries]
    · rw [hids] at hid
      obtain ⟨param,_,hparam⟩ := mem_filterMap.mp hid
      have hsettled : ∀ y : Name,∀ flags,id=⟨y.1,.local,flags,0⟩ → Settled id := by
        intro y flags hsame
        subst hsame
        exact ⟨fun _ => .inl rfl,fun hblank => absurd hblank y.2⟩
      cases param with
      | plain y => exact hsettled y _ (Option.some.inj hparam).symm
      | star y => exact hsettled y _ (Option.some.inj hparam).symm
      | bareStar => cases hparam
      | dblStar y => exact hsettled y _ (Option.some.inj hparam).symm
    · rcases hkind with rfl | rfl <;> exact hpos
    · rcases hkind with rfl | rfl <;> exact hkwonly
    · rcases hkind with rfl | rfl <;> exact hvarargs
    · rcases hkind with rfl | rfl <;> exact hvarkeywords
  have hcomp : ∀ {kind},firstEntries ⟨kind,params,ancestors,items⟩=[("",.none)] →
      signatureOf ⟨kind,params,ancestors,items⟩={Signature.none with pos := [""]} →
      state.scopes[i]?=some ⟨kind,params,ancestors,items⟩ →
      compileComp state ancestors i=.ok state' →
        Ordered (i+1) state'∧state'.scopes=state.scopes := by
    intro kind hfirst hsig hscope hcompile
    obtain ⟨mid,hput,hload⟩ := bind_ok hcompile
    obtain ⟨hscopes,hothers,htable⟩ := putKind_empty hempty hput
    have hfound : (mid.setTable i {mid.table i with numPosArgs := 1}).kindOf i ""=some .local := by
      simp [State.kindOf,State.setTable,htable,Table.empty,scopeFind]
    simp only [getIdForLoad,hfound] at hload
    cases hload
    refine ⟨h.started hscope hscopes (fun j hj => ?_) ?_,hscopes⟩
    · rw [State.setTable_of_ne _ _ hj]
      exact hothers j hj
    · rw [State.setTable_self,htable]
      refine ⟨⟨[],?_,not_mem_nil⟩,?_,?_,fun id hid => ?_,?_,?_,?_,?_⟩
      · rw [hfirst]
        rfl
      · exact nodup_singleton ""
      · exact (by decide : 1≤65531)
      · rw [mem_singleton.mp hid]
        exact ⟨fun hflags => absurd rfl hflags,fun _ => rfl⟩
      all_goals
        rw [hsig]
        rfl
  cases kind with
  | module =>
    cases hstart
    refine ⟨h.started hscope rfl (fun _ _ => rfl) ?_,rfl⟩
    rw [hempty]
    exact ⟨⟨[],rfl,not_mem_nil⟩,nodup_nil,zero_le _,(fun _ h => by cases h),rfl,rfl,rfl,rfl⟩
  | function => exact hfunction (.inl rfl) hscope hstart
  | lambda => exact hfunction (.inr rfl) hscope hstart
  | classDef =>
    obtain ⟨mid,hclass,hrest⟩ := bind_ok hstart
    obtain ⟨mid',hname,hrest⟩ := bind_ok hrest
    obtain ⟨mid'',hmodule,hqualname⟩ := bind_ok hrest
    obtain ⟨hscopes,hothers,htable⟩ := putKind_empty hempty hclass
    have hstarted : Ordered (i+1) mid := by
      refine h.started hscope hscopes hothers ?_
      rw [htable]
      refine ⟨⟨[],rfl,not_mem_nil⟩,nodup_singleton _,(by decide : 1≤65531),
        fun id hid => ?_,rfl,rfl,rfl,rfl⟩
      rw [mem_singleton.mp hid]
      exact ⟨fun hflags => absurd rfl hflags,fun _ => rfl⟩
    have hstep := ((getIdForLoad_step hi (by decide) hancestors hname).trans
      (getIdForModification_step hi (by decide) hmodule)).trans
        (getIdForModification_step hi (by decide) hqualname)
    exact ⟨hstarted.step hstep,hstep.scopes.trans hscopes⟩
  | _ => exact hcomp rfl rfl hscope hstart

theorem compileScope_ordered
    (hcompile : compileScope state i scope=.ok state') : Ordered (i+1) state' := by
  obtain ⟨mid,hstart,hitems⟩ := bind_ok hcompile
  obtain ⟨hmid,hscopes⟩ := compileStart_ordered h hscope hstart
  refine runItems_ordered hmid ?_ hitems
  rw [hscopes]
  exact hscope

end

/-- The loop over the scopes ends with all tables in order. -/
theorem compileScopes_ordered {uses : List ScopePass.Use} (fuel : ℕ) {i : ℕ} {state : State}
    (h : Ordered i state) (hprogress : Progress uses i state.plain)
    (hfuel : pending (state.plain.scopes.drop i)=fuel)
    (hcompile : compileScopes fuel i state=.ok state') :
    Ordered state'.scopes.length state'∧Progress uses state'.scopes.length state'.plain := by
  have hlength : state.plain.scopes.length=state.scopes.length := length_map _
  have hend : i=state.scopes.length → Ordered state.scopes.length state∧
      Progress uses state.scopes.length state.plain := by
    intro hi
    rw [←hi]
    exact ⟨h,hprogress⟩
  induction fuel generalizing i state with
  | zero =>
    cases hcompile
    refine hend (Nat.le_antisymm (hlength ▸ hprogress.le) (Nat.le_of_not_lt fun hi => ?_))
    rw [drop_eq_getElem_cons (hlength.symm ▸ hi),pending,map_cons,sum_cons] at hfuel
    omega
  | succ fuel ih =>
    rw [compileScopes] at hcompile
    cases hscope : state.scopes[i]? with
    | none =>
      simp only [hscope] at hcompile
      cases hcompile
      exact hend (Nat.le_antisymm (hlength ▸ hprogress.le) (List.getElem?_eq_none_iff.mp hscope))
    | some scope =>
      simp only [hscope] at hcompile
      obtain ⟨mid,hone,hrest⟩ := bind_ok hcompile
      have hplain : state.plain.scopes[i]?=some scope.plain := by
        simp [State.plain,hscope]
      have hi := (List.getElem?_eq_some_iff.mp hplain).1
      have hparams : scope.kind≠.function → scope.kind≠.lambda → scope.params=[] :=
        fun hf hl => h.params i scope hscope fun htakes => htakes.elim hf hl
      have hnext := compileScope_progress hprogress hplain
      rw [compileScope_plain (h.fresh i (Nat.le_refl i)) hparams hone] at hnext
      have hsum : pending (mid.plain.scopes.drop (i+1))=
          pending (state.plain.scopes.drop (i+1))+scopeCounts scope.plain.uses := by
        rw [hnext.2,drop_append_of_le_length hi,pending,map_append,sum_append,
          ←pending,←pending,pending_newScopes,(State.at hplain).1]
      have hcons := drop_eq_getElem_cons hi
      rw [(List.getElem?_eq_some_iff.mp hplain).2] at hcons
      rw [hcons,pending,map_cons,sum_cons,←pending] at hfuel
      refine ih (compileScope_ordered h hscope hone) hnext.1 (by omega) hrest
        (length_map _) fun hi => ?_
      rw [←hi]
      exact ⟨compileScope_ordered h hscope hone,hnext.1⟩

/-- After the pass all tables are in order. -/
theorem scopePass_ordered {body : List Item} (h : scopePass body=.ok state) :
    Ordered state.scopes.length state∧Progress (itemUses body) state.scopes.length state.plain := by
  have hstart : Ordered 0 (start body) := by
    refine ⟨⟨body,rfl⟩,?_,?_,nofun,fun _ _ => rfl⟩
    · intro j scope hscope
      cases j with
      | zero =>
        cases hscope
        exact ⟨nofun,rfl⟩
      | succ j => cases hscope
    · intro j scope hscope _
      cases j with
      | zero =>
        cases hscope
        rfl
      | succ j => cases hscope
  have hplain : (start body).plain=⟨[⟨.module,[],itemUses body⟩],fun _ _ => none⟩ := rfl
  refine @compileScopes_ordered state (itemUses body) _ 0 (start body) hstart ?_ ?_ h
  · rw [hplain]
    exact initial_progress (itemUses body)
  · rw [hplain]
    rfl

end MicroPython.IdOrder
