import MicroPython.LexicalScope

/-!
# Tables of the scope pass

The table of a scope follows from its own uses and from one question to the
scopes around it, whether they have the name as a variable. Scopes that are
compiled later only close over its entries. The invariant of the loop over all
scopes says so, and each use of a name keeps it.
-/

namespace MicroPython.ScopePass

open Nat List

/-- The new scopes that a body starts. -/
def newScopes (i : ℕ) (ancestors : List ℕ) (uses : List Use) : List Scope :=
  uses.filterMap fun
    | .scope kind body => some ⟨kind,i::ancestors,implicitUses kind++body⟩
    | _ => none

theorem newScopes_cons (i : ℕ) (ancestors : List ℕ) (use : Use) (uses : List Use) :
    newScopes i ancestors (use::uses)=newScopes i ancestors [use]++newScopes i ancestors uses :=
  @filterMap_append _ _ [use] uses _

/-- Closing over changes tables only. -/
theorem closeOverInParents_scopes (x : String) (ancestors : List ℕ) (state : State) :
    (closeOverInParents state x ancestors).scopes=state.scopes := by
  induction ancestors generalizing state with
  | nil => rfl
  | cons s rest ih =>
    rw [closeOverInParents]
    split
    · rw [ih]
      rfl
    · rfl
    · rfl

/-- The search and closing over change tables only. -/
theorem findLocalAndCloseOver_scopes (state : State) (ancestors : List ℕ) (i : ℕ) (x : String) :
    (findLocalAndCloseOver state ancestors i x).scopes=state.scopes := by
  rw [findLocalAndCloseOver]
  split
  · rw [closeOverInParents_scopes]
    rfl
  · rfl

variable {kind : ScopeKind} {ancestors : List ℕ} {i done j : ℕ} {state state' : State} {use : Use}
  {vis : Bool} {x : String} {seen body : List Use} {scope : Scope} {added : List Scope}

/-- A use adds the scope that it starts and no other one. -/
theorem runUse_scopes (h : runUse kind ancestors i state use=.ok state') :
    state'.scopes=state.scopes++newScopes i ancestors [use] := by
  cases use with
  | param x =>
    simp only [runUse,declareParam] at h
    split at h
    · cases h
      exact (append_nil _).symm
    · cases h
  | load x =>
    cases h
    rw [getIdForLoad]
    split
    · exact (append_nil _).symm
    · rw [findLocalAndCloseOver_scopes]
      exact (append_nil _).symm
  | store x | delete x =>
    cases h
    unfold getIdForModification
    split
    · exact (append_nil _).symm
    · split <;> exact (append_nil _).symm
    · exact (append_nil _).symm
  | global x =>
    simp only [runUse,declareGlobal] at h
    split at h
    · cases h
      split <;> exact (append_nil _).symm
    · cases h
      split <;> exact (append_nil _).symm
    · cases h
  | nonlocal x =>
    simp only [runUse,declareNonlocal] at h
    split at h
    · cases h
    · split at h
      · split at h
        · cases h
        · cases h
          rw [findLocalAndCloseOver_scopes]
          exact (append_nil _).symm
      · cases h
        exact (append_nil _).symm
      · cases h
  | scope inner body =>
    cases h
    rfl

/-- The uses of a scope add the scopes that they start, in order. -/
theorem runUses_scopes {uses : List Use} (h : runUses kind ancestors i state uses=.ok state') :
    state'.scopes=state.scopes++newScopes i ancestors uses := by
  induction uses generalizing state with
  | nil =>
    cases h
    exact (append_nil _).symm
  | cons use uses ih =>
    rw [runUses] at h
    cases huse : runUse kind ancestors i state use with
    | error e =>
      rw [huse] at h
      cases h
    | ok state₁ =>
      rw [huse] at h
      rw [ih h,runUse_scopes huse,append_assoc]
      exact congrArg (state.scopes++·) (newScopes_cons i ancestors use uses).symm

/-- The class of a name in the table after one more use of it, without regard
to inner scopes; nothing if the use is an error. `vis` tells whether the
search through the enclosing scopes finds a variable. -/
def useStep (kind : ScopeKind) (vis : Bool) (x : String) (e : Option IdKind) :
    Use→Option (Option IdKind)
  | .param y => if y=x then (if e=none then some (some .local) else none) else some e
  | .load y =>
    if y=x then some (some (e.getD (if vis=true then .free else .globalImplicit))) else some e
  | .store y | .delete y =>
    if y=x then
      if e=none ∨ e=some .globalImplicit then
        some (some (if kind.isFuncLike=true then .local else .globalImplicit))
      else some e
    else some e
  | .global y =>
    if y=x then
      if e=none ∨ e=some .globalExplicit then some (some .globalExplicit) else none
    else some e
  | .nonlocal y =>
    if y=x then
      if kind≠.module ∧ (e=some .free ∨ (e=none ∧ vis=true)) then some (some .free) else none
    else some e
  | .scope _ _ => some e

/-- The class of a name after a list of uses. -/
def entryFrom (kind : ScopeKind) (vis : Bool) (x : String) :
    Option IdKind→List Use→Option (Option IdKind)
  | e,[] => some e
  | e,use::uses => match useStep kind vis x e use with
    | none => none
    | some e => entryFrom kind vis x e uses

/-- The class of a name before the first use. -/
def initialEntry (kind : ScopeKind) (x : String) : Option IdKind :=
  if kind=.classDef ∧ x="__class__" then some .local else none

/-- The class of a name after all uses of a scope. -/
def entry (block : Block) (vis : Bool) (x : String) : Option (Option IdKind) :=
  entryFrom block.kind vis x (initialEntry block.kind x) block.uses

/-- The answer of the search at an entry, where `vis` is the answer of the
scopes further out. -/
def found (vis : Bool) : Option IdKind→Bool
  | none => vis
  | some .local | some .cell | some .free => true
  | some .globalImplicit | some .globalExplicit => false

/-- Whether the search through the enclosing scopes finds a variable. -/
def visible (x : String) : List Block→Bool
  | [] => false
  | [_] => false
  | block::next::outer =>
    match entry block (visible x (next::outer)) x with
    | none => false
    | some e => found (visible x (next::outer)) e

/-- One step of the search. -/
theorem findLocal_cons (state : State) (x : String) (s s' : ℕ) (rest : List ℕ) :
    findLocal state x (s::s'::rest)=found (findLocal state x (s'::rest)) (state.kindOf s x) := by
  rw [findLocal]
  rcases state.kindOf s x with _ | (_ | _ | _ | _ | _) <;> rfl

/-- How inner scopes may change an entry, in a module or another scope: a local
becomes a cell, a name that the search finds is closed over, and a name of the
module is declared global. -/
inductive Touched (isModule : Prop) (vis : Bool) : Option IdKind→Option IdKind→Prop where
  | same (e : Option IdKind) : Touched isModule vis e e
  | cell (hinner : ¬isModule) : Touched isModule vis (some .local) (some .cell)
  /-- An inner scope uses the name of a scope further out. -/
  | through (hvis : vis=true) : Touched isModule vis none (some .free)
  /-- An inner scope declares the name global. -/
  | declared (hmodule : isModule) (kind : IdKind) :
    Touched isModule vis (some kind) (some .globalExplicit)

/-- Two changes in a row. -/
theorem Touched.trans {isModule : Prop} {e₁ e₂ e₃ : Option IdKind}
    (hmodule : isModule → vis=false) (h₁ : Touched isModule vis e₁ e₂)
    (h₂ : Touched isModule vis e₂ e₃) : Touched isModule vis e₁ e₃ := by
  cases h₁ with
  | same => exact h₂
  | cell hinner =>
    cases h₂ with
    | same => exact .cell hinner
    | declared h => exact absurd h hinner
  | through hvis =>
    cases h₂ with
    | same => exact .through hvis
    | declared h => exact absurd hvis (by rw [hmodule h]; decide)
  | declared h kind =>
    cases h₂ with
    | same => exact .declared h kind
    | declared _ _ => exact .declared h kind

/-- What inner scopes do to an entry leaves the answer of the search as it is. -/
theorem Touched.found_eq {isModule : Prop} {e e' : Option IdKind}
    (hmodule : ¬isModule) (h : Touched isModule vis e e') : found vis e'=found vis e := by
  cases h with
  | same => rfl
  | cell => rfl
  | through hvis => exact hvis.symm
  | declared h => exact absurd h hmodule

/-- Whether the search from scope `j` finds a variable. -/
def State.sees (st : State) (j : ℕ) (x : String) : Bool := visible x (st.outer j)

/-- The table of scope `j` is complete. The list of scopes is that of `st`. -/
def TableOk (st state : State) (j : ℕ) : Prop :=
  ∀ x,∃ e,entry (st.block j) (st.sees j x) x=some e ∧
    Touched (st.ancestors j=[]) (st.sees j x) e (state.kindOf j x)

/-- A chain of parent pointers from a scope whose table is complete. -/
def IsChain (st : State) (done : ℕ) : List ℕ→Prop
  | [] => True
  | s::rest => s < done ∧ st.ancestors s=rest ∧ (∀ a∈rest,a < s) ∧ IsChain st done rest

variable {st : State}

/-- The entries of the parents of a chain agree with the search. -/
theorem findLocal_eq_visible (htable : ∀ j < done,TableOk st state j) (x : String)
    (hchain : IsChain st done ancestors) :
    findLocal state x ancestors=visible x (ancestors.map st.block) := by
  induction ancestors with
  | nil => rfl
  | cons s rest ih =>
    obtain ⟨hdone,hrest,_,hchain'⟩ := hchain
    cases rest with
    | nil => rfl
    | cons s' rest =>
      obtain ⟨e,hentry,htouched⟩ := htable s hdone x
      have hsees : st.sees s x=visible x ((s'::rest).map st.block) := by
        rw [State.sees,State.outer,hrest]
      have hinner : st.ancestors s≠[] := by
        rw [hrest]
        exact cons_ne_nil s' rest
      rw [hsees] at hentry htouched
      rw [findLocal_cons,ih hchain',htouched.found_eq hinner]
      simp only [map_cons] at hentry ⊢
      rw [visible,hentry]

/-- The members of a chain have their own chains, which lie inside. -/
theorem IsChain.member (hchain : IsChain st done ancestors) (hj : j∈ancestors) :
    j < done ∧ (∀ a∈st.ancestors j,a < j) ∧ IsChain st done (st.ancestors j) ∧
      st.ancestors j⊆ancestors := by
  induction ancestors with
  | nil => cases hj
  | cons s rest ih =>
    obtain ⟨hdone,hrest,hless,hchain'⟩ := hchain
    cases mem_cons.mp hj with
    | inl h =>
      rw [h,hrest]
      exact ⟨hdone,hless,hchain',subset_cons_self s rest⟩
    | inr h =>
      obtain ⟨h₁,h₂,h₃,h₄⟩ := ih hchain' h
      exact ⟨h₁,h₂,h₃,fun a ha => mem_cons_of_mem s (h₄ ha)⟩

/-- The search reads the tables of the parents only. -/
theorem findLocal_congr {state state' : State} (x : String) {ancestors : List ℕ}
    (h : ∀ s∈ancestors,state'.kindOf s x=state.kindOf s x) :
    findLocal state' x ancestors=findLocal state x ancestors := by
  induction ancestors with
  | nil => rfl
  | cons s rest ih =>
    cases rest with
    | nil => rfl
    | cons s' rest =>
      rw [findLocal_cons,findLocal_cons,h s mem_cons_self,ih fun a ha => h a (mem_cons_of_mem s ha)]

/-- The entry just set. -/
theorem put_self (state : State) (i : ℕ) (x : String) (kind : IdKind) :
    (state.put i x kind).kindOf i x=some kind := if_pos ⟨rfl,rfl⟩

/-- Setting an entry leaves all other ones. -/
theorem put_other (state : State) {y : String} (kind : IdKind)
    (h : j≠i ∨ y≠x) : (state.put i x kind).kindOf j y=state.kindOf j y := by
  refine if_neg fun heq => ?_
  cases h with
  | inl h => exact h heq.1
  | inr h => exact h heq.2

/-- The first of the scopes around has the name as a variable to close over. -/
def HasOuter (state : State) (x : String) : List ℕ→Prop
  | p::_::_ => state.kindOf p x=some .free ∨ state.kindOf p x=some .cell
  | _ => False

/-- What closing over a name does to the tables of the enclosing scopes. -/
structure Closes (st state state' : State) (x : String) (ancestors : List ℕ) : Prop where
  /-- No other name and no other scope changes. -/
  other : ∀ j y,j∉ancestors ∨ y≠x → state'.kindOf j y=state.kindOf j y
  /-- Entries change only as inner scopes may change them. -/
  touched : ∀ j∈ancestors,Touched (st.ancestors j=[]) (findLocal state x (st.ancestors j))
    (state.kindOf j x) (state'.kindOf j x)
  /-- The nearest scope has the name afterwards. -/
  hasOuter : HasOuter state' x ancestors
  /-- So does the parent of each scope where the name is now free. -/
  free : ∀ j∈ancestors,state'.kindOf j x=some .free→
    state.kindOf j x=some .free ∨ HasOuter state' x (st.ancestors j)

/-- Nothing to do when the nearest scope has the name already. -/
theorem Closes.refl (st state : State) {s s' : ℕ} {rest : List ℕ}
    (h : state.kindOf s x=some .free ∨ state.kindOf s x=some .cell) :
    Closes st state state x (s::s'::rest) where
  other := fun _ _ _ => rfl
  touched := fun _ _ => .same _
  hasOuter := h
  free := fun _ _ h => .inl h

/-- Closing over a name that the search finds. -/
theorem closeOverInParents_closes (hchain : IsChain st done ancestors)
    (hfind : findLocal state x ancestors=true) :
    Closes st state (closeOverInParents state x ancestors) x ancestors := by
  induction ancestors generalizing state with
  | nil => cases hfind
  | cons s rest ih =>
    cases rest with
    | nil => cases hfind
    | cons s' rest =>
      obtain ⟨hdone,hrest,hless,hchain'⟩ := hchain
      rw [findLocal_cons] at hfind
      rw [closeOverInParents]
      have hs : s∉s'::rest := fun h => absurd (hless s h) (Nat.lt_irrefl s)
      cases hkind : state.kindOf s x with
      | none =>
        rw [hkind] at hfind
        -- the search goes on further out, where this scope's entry is not read
        have hput : ∀ j∈s'::rest,(state.put s x .free).kindOf j x=state.kindOf j x :=
          fun j hj => put_other state .free (.inl fun h => hs (h▸hj))
        have hput' : findLocal (state.put s x .free) x (s'::rest)=true := by
          rw [findLocal_congr x hput]
          exact hfind
        have hcloses := ih hchain' hput'
        have hself : (closeOverInParents (state.put s x .free) x (s'::rest)).kindOf s x=
            some .free := by
          rw [hcloses.other s x (.inl hs),put_self]
        refine ⟨?_,?_,?_,?_⟩
        · intro j y hjy
          have hj : j∉s'::rest ∨ y≠x := hjy.imp_left fun h hmem => h (mem_cons_of_mem s hmem)
          have hj' : j≠s ∨ y≠x := hjy.imp_left fun h heq => h (heq▸mem_cons_self)
          rw [hcloses.other j y hj,put_other state .free hj']
        · intro j hj
          cases mem_cons.mp hj with
          | inl h =>
            rw [h,hself,hkind,hrest]
            exact .through hfind
          | inr h =>
            have htouched := hcloses.touched j h
            have hinside := (hchain'.member h).2.2.2
            rw [hput j h,findLocal_congr x fun a ha => hput a (hinside ha)] at htouched
            exact htouched
        · exact .inl hself
        · intro j hj hfree
          cases mem_cons.mp hj with
          | inl h =>
            rw [h,hrest]
            exact .inr hcloses.hasOuter
          | inr h =>
            have hcases := hcloses.free j h hfree
            rw [hput j h] at hcases
            exact hcases
      | some kind =>
        rw [hkind] at hfind
        cases kind with
        | globalImplicit | globalExplicit => cases hfind
        | free => exact .refl st state (.inl hkind)
        | cell => exact .refl st state (.inr hkind)
        | «local» =>
          refine ⟨?_,?_,.inr (put_self state s x .cell),?_⟩
          · intro j y hjy
            exact put_other state .cell (hjy.imp_left fun h heq => h (heq▸mem_cons_self))
          · intro j hj
            cases Decidable.em (j=s) with
            | inl h =>
              rw [h,put_self,hkind]
              refine .cell ?_
              rw [hrest]
              exact cons_ne_nil s' rest
            | inr h =>
              rw [put_other state .cell (.inl h)]
              exact .same _
          · intro j hj hfree
            cases Decidable.em (j=s) with
            | inl h =>
              rw [h,put_self] at hfree
              cases hfree
            | inr h =>
              rw [put_other state .cell (.inl h)] at hfree
              exact .inl hfree

/-- A use does not change the class of other names. -/
theorem useStep_other {e : Option IdKind}
    (h : use.mentions x=false) : useStep kind vis x e use=some e := by
  cases use with
  | scope inner body => rfl
  | param y | load y | store y | delete y | global y | nonlocal y =>
    exact if_neg (of_decide_eq_false h)

/-- The class of a name after a list of uses and one more. -/
theorem entryFrom_append (kind : ScopeKind) (vis : Bool) (x : String) (uses₁ uses₂ : List Use)
    (e : Option IdKind) : entryFrom kind vis x e (uses₁++uses₂)=
      (entryFrom kind vis x e uses₁).bind fun e => entryFrom kind vis x e uses₂ := by
  induction uses₁ generalizing e with
  | nil => rfl
  | cons use uses₁ ih =>
    rw [cons_append,entryFrom,entryFrom]
    cases useStep kind vis x e use with
    | none => rfl
    | some e' => exact ih e'

/-- The class of a name after one use. -/
theorem entryFrom_one (kind : ScopeKind) (vis : Bool) (x : String) (e : Option IdKind)
    (use : Use) : entryFrom kind vis x e [use]=useStep kind vis x e use := by
  rw [entryFrom]
  cases useStep kind vis x e use <;> rfl

/-- The search from the module finds nothing. -/
theorem State.sees_module (x : String) (h : st.ancestors j=[]) : st.sees j x=false := by
  rw [State.sees,State.outer,h]
  rfl

/-- A chain stays one when more tables are complete. -/
theorem IsChain.mono {done' : ℕ}
    (hchain : IsChain st done ancestors) (h : done≤done') : IsChain st done' ancestors := by
  induction ancestors with
  | nil => trivial
  | cons s rest ih =>
    obtain ⟨hdone,hrest,hless,hchain'⟩ := hchain
    exact ⟨Nat.lt_of_lt_of_le hdone h,hrest,hless,ih hchain'⟩

/-- The tables while scope `i` is compiled, after some of its uses. The list of
scopes is that of `st`. -/
structure Tables (st : State) (i : ℕ) (seen : List Use) (state : State) : Prop where
  /-- The tables before are complete. -/
  table : ∀ j < i,TableOk st state j
  /-- The current table has exactly what the uses so far give. -/
  current : ∀ x,entryFrom (st.block i).kind (st.sees i x) x (initialEntry (st.block i).kind x)
    seen=some (state.kindOf i x)
  /-- The tables after are empty. -/
  fresh : ∀ j,i < j→∀ x,state.kindOf j x=none
  /-- A free name is a variable of the scope around. -/
  free : ∀ j ≤ i,∀ x,state.kindOf j x=some .free→HasOuter state x (st.ancestors j)

/-- What a use of the name in scope `i` may do to the tables. -/
structure Effect (st : State) (i : ℕ) (state state' : State) (x : String)
    (new : Option IdKind) : Prop where
  current : state'.kindOf i x=new
  /-- Other names of the scope stay. -/
  own : ∀ y≠x,state'.kindOf i y=state.kindOf i y
  /-- The tables before change as inner scopes may change them. -/
  touched : ∀ j < i,∀ y,Touched (st.ancestors j=[]) (st.sees j y) (state.kindOf j y)
    (state'.kindOf j y)
  /-- The tables after stay. -/
  fresh : ∀ j,i < j→∀ y,state'.kindOf j y=state.kindOf j y
  /-- New free names are variables of the scope around. -/
  free : ∀ j ≤ i,∀ y,state'.kindOf j y=some .free→
    state.kindOf j y=some .free ∨ HasOuter state' y (st.ancestors j)

/-- A use without effect. -/
theorem Effect.refl (st : State) (i : ℕ) (state : State) (x : String) :
    Effect st i state state x (state.kindOf i x) where
  current := rfl
  own := fun _ _ => rfl
  touched := fun _ _ _ => .same _
  fresh := fun _ _ _ => rfl
  free := fun _ _ _ h => .inl h

/-- A use that only sets the entry of the name. -/
theorem Effect.put (st : State) (i : ℕ) (state : State) (x : String) {kind : IdKind}
    (hfree : kind≠.free) : Effect st i state (state.put i x kind) x (some kind) where
  current := put_self state i x kind
  own := fun y h => put_other state kind (.inr h)
  touched := fun j hj y => by
    rw [put_other state kind (.inl (Nat.ne_of_lt hj))]
    exact .same _
  fresh := fun j hj y => put_other state kind (.inl (Nat.ne_of_gt hj))
  free := fun j _ y h => by
    cases Decidable.em (j=i ∧ y=x) with
    | inl heq =>
      rw [heq.1,heq.2,put_self] at h
      exact absurd (Option.some.inj h) hfree
    | inr hne =>
      rw [put_other state kind (Decidable.not_and_iff_or_not.mp hne)] at h
      exact .inl h

/-- A variable of the scope around stays one. -/
theorem HasOuter.preserved (hchain : IsChain st done ancestors)
    (htouched : ∀ j < done,Touched (st.ancestors j=[]) (st.sees j x) (state.kindOf j x)
      (state'.kindOf j x))
    (h : HasOuter state x ancestors) : HasOuter state' x ancestors := by
  rcases ancestors with _ | ⟨p,_ | ⟨q,rest⟩⟩
  · exact h
  · exact h
  obtain ⟨hdone,hrest,_,_⟩ := hchain
  have hinner : st.ancestors p≠[] := by
    rw [hrest]
    exact cons_ne_nil q rest
  have hp := htouched p hdone
  generalize hactual : state'.kindOf p x=actual at hp
  cases h with
  | inl h =>
    rw [h] at hp
    cases hp with
    | same => exact .inl hactual
    | declared hmodule => exact absurd hmodule hinner
  | inr h =>
    rw [h] at hp
    cases hp with
    | same => exact .inr hactual
    | declared hmodule => exact absurd hmodule hinner

/-- A use with a known effect keeps the invariant of the tables. -/
theorem Tables.step {st : State} {i : ℕ} {seen : List Use} {state state' : State} {x : String}
    {new : Option IdKind} {use : Use} (htables : Tables st i seen state)
    (hchain : ∀ j ≤ i,IsChain st j (st.ancestors j)) (heffect : Effect st i state state' x new)
    (hstep : useStep (st.block i).kind (st.sees i x) x (state.kindOf i x) use=some new)
    (hother : ∀ y≠x,use.mentions y=false) : Tables st i (seen++[use]) state' where
  table := fun j hj y => by
    obtain ⟨e,hentry,htouched⟩ := htables.table j hj y
    exact ⟨e,hentry,htouched.trans (State.sees_module y) (heffect.touched j hj y)⟩
  current := fun y => by
    rw [entryFrom_append,htables.current y,Option.bind_some,entryFrom_one]
    cases Decidable.em (y=x) with
    | inl h => rw [h,hstep,heffect.current]
    | inr h => rw [useStep_other (hother y h),heffect.own y h]
  fresh := fun j hj y => by rw [heffect.fresh j hj y,htables.fresh j hj y]
  free := fun j hj y h => by
    cases heffect.free j hj y h with
    | inl hold =>
      exact (htables.free j hj y hold).preserved (hchain j hj)
        fun k hk => heffect.touched k (Nat.lt_of_lt_of_le hk hj) y
    | inr hnew => exact hnew

/-- The search and closing over give a free or a global name. -/
theorem findLocalAndCloseOver_effect
    (htables : Tables st i seen state) (hchain : ∀ j ≤ i,IsChain st j (st.ancestors j))
    (x : String) : Effect st i state (findLocalAndCloseOver state (st.ancestors i) i x) x
      (some (if st.sees i x=true then .free else .globalImplicit)) := by
  have hfound : ∀ j ≤ i,findLocal state x (st.ancestors j)=st.sees j x := fun j hj =>
    findLocal_eq_visible (fun k hk => htables.table k (Nat.lt_of_lt_of_le hk hj)) x (hchain j hj)
  rw [findLocalAndCloseOver,hfound i (Nat.le_refl i)]
  cases hsees : st.sees i x with
  | false => exact Effect.put st i state x nofun
  | true =>
    have hi : i∉st.ancestors i := fun h =>
      absurd ((hchain i (Nat.le_refl i)).member h).1 (Nat.lt_irrefl i)
    have hput : ∀ j∈st.ancestors i,(state.put i x .free).kindOf j x=state.kindOf j x :=
      fun j hj => put_other state .free (.inl fun h => hi (h▸hj))
    have hfind : findLocal (state.put i x .free) x (st.ancestors i)=true := by
      rw [findLocal_congr x hput,hfound i (Nat.le_refl i)]
      exact hsees
    have hcloses := closeOverInParents_closes (hchain i (Nat.le_refl i)) hfind
    rw [if_pos rfl,if_pos rfl]
    generalize closeOverInParents (state.put i x .free) x (st.ancestors i)=state' at hcloses
    have hself : state'.kindOf i x=some .free := by
      rw [hcloses.other i x (.inl hi),put_self]
    -- entries of other scopes and names are those before, except on the chain
    have hother : ∀ j y,j∉st.ancestors i ∨ y≠x → j≠i ∨ y≠x→state'.kindOf j y=state.kindOf j y := by
      intro j y h h'
      rw [hcloses.other j y h,put_other state .free h']
    refine ⟨hself,fun y hy => hother i y (.inr hy) (.inr hy),?_,?_,?_⟩
    · intro j hj y
      cases Decidable.em (j∈st.ancestors i ∧ y=x) with
      | inl h =>
        have htouched := hcloses.touched j h.1
        have hmember := (hchain i (Nat.le_refl i)).member h.1
        rw [hput j h.1,findLocal_congr x fun a ha => hput a (hmember.2.2.2 ha),
          hfound j (Nat.le_of_lt hj)] at htouched
        rw [h.2]
        exact htouched
      | inr h =>
        rw [hother j y (Decidable.not_and_iff_or_not.mp h) (.inl (Nat.ne_of_lt hj))]
        exact .same _
    · intro j hj y
      refine hother j y (.inl fun h => ?_) (.inl (Nat.ne_of_gt hj))
      exact absurd ((hchain i (Nat.le_refl i)).member h).1 (Nat.not_lt_of_gt hj)
    · intro j hj y hfree
      cases Decidable.em (y=x) with
      | inr h =>
        rw [hother j y (.inr h) (.inr h)] at hfree
        exact .inl hfree
      | inl h =>
        rw [h] at hfree ⊢
        cases Decidable.em (j=i) with
        | inl heq =>
          rw [heq]
          exact .inr hcloses.hasOuter
        | inr hne =>
          cases Decidable.em (j∈st.ancestors i) with
          | inl hmem =>
            have hcases := hcloses.free j hmem hfree
            rw [hput j hmem] at hcases
            exact hcases
          | inr hmem =>
            rw [hother j x (.inl hmem) (.inl hne)] at hfree
            exact .inl hfree

/-- The last parent is the module. -/
theorem IsChain.getLast (hchain : IsChain st done ancestors) (hne : ancestors≠[]) :
    ancestors.getLast hne < done ∧ st.ancestors (ancestors.getLast hne)=[] := by
  induction ancestors with
  | nil => exact absurd rfl hne
  | cons s rest ih =>
    obtain ⟨hdone,hrest,_,hchain'⟩ := hchain
    cases rest with
    | nil => exact ⟨hdone,hrest⟩
    | cons s' rest =>
      rw [getLast_cons (cons_ne_nil s' rest)]
      exact ih hchain' (cons_ne_nil s' rest)

/-- A chain from scope `i` ends at the module, which `i` may be itself. -/
theorem getLastD_module (hchain : IsChain st i (st.ancestors i)) :
    (st.ancestors i).getLastD i=i ∨
      ((st.ancestors i).getLastD i < i ∧ st.ancestors ((st.ancestors i).getLastD i)=[]) := by
  cases hanc : st.ancestors i with
  | nil => exact .inl rfl
  | cons s rest =>
    rw [hanc] at hchain
    rw [getLastD_cons,← getLast_eq_getLastD (cons_ne_nil s rest)]
    exact .inr (hchain.getLast (cons_ne_nil s rest))

/-- Declaring a name global frees no entry. -/
theorem put_globalExplicit_free {y : String}
    (h : (state.put i x .globalExplicit).kindOf j y=some .free) : state.kindOf j y=some .free := by
  cases Decidable.em (j=i ∧ y=x) with
  | inl heq =>
    rw [heq.1,heq.2,put_self] at h
    cases h
  | inr hne =>
    rw [put_other state .globalExplicit (Decidable.not_and_iff_or_not.mp hne)] at h
    exact h

/-- A `global` declaration also marks the entry of the module. -/
theorem declare_effect (state : State) (hchain : IsChain st i (st.ancestors i)) {kind : IdKind}
    (hm : (state.put i x .globalExplicit).kindOf ((st.ancestors i).getLastD i) x=some kind) :
    Effect st i state ((state.put i x .globalExplicit).put ((st.ancestors i).getLastD i) x
      .globalExplicit) x (some .globalExplicit) := by
  have heffect : Effect st i state (state.put i x .globalExplicit) x (some .globalExplicit) :=
    .put st i state x nofun
  have hcase := getLastD_module hchain
  generalize (st.ancestors i).getLastD i=m at hm hcase
  have hle : m ≤ i := hcase.elim Nat.le_of_eq fun h => Nat.le_of_lt h.1
  refine ⟨?_,?_,?_,?_,?_⟩
  · cases hcase with
    | inl h => rw [h,put_self]
    | inr h => rw [put_other _ .globalExplicit (.inl (Nat.ne_of_gt h.1)),heffect.current]
  · intro y hy
    rw [put_other _ .globalExplicit (.inr hy),heffect.own y hy]
  · intro j hj y
    cases Decidable.em (j=m ∧ y=x) with
    | inl heq =>
      have hmodule : st.ancestors m=[] := by
        cases hcase with
        | inl h => exact absurd (heq.1.trans h) (Nat.ne_of_lt hj)
        | inr h => exact h.2
      have htouched := heffect.touched j hj y
      rw [heq.1,heq.2,hm] at htouched
      rw [heq.1,heq.2,put_self]
      exact htouched.trans (State.sees_module x) (.declared hmodule kind)
    | inr hne =>
      rw [put_other _ .globalExplicit (Decidable.not_and_iff_or_not.mp hne)]
      exact heffect.touched j hj y
  · intro j hj y
    have hj' : j≠m := Nat.ne_of_gt (Nat.lt_of_le_of_lt hle hj)
    rw [put_other _ .globalExplicit (.inl hj'),heffect.fresh j hj y]
  · intro j hj y h
    exact .inl (put_globalExplicit_free (put_globalExplicit_free h))

/-- An erroneous use gives no class. -/
def Fails (st : State) (i : ℕ) (uses : List Use) : Prop :=
  ∃ x,entryFrom (st.block i).kind (st.sees i x) x (initialEntry (st.block i).kind x) uses=none

theorem Tables.fails (htables : Tables st i seen state) (x : String)
    (hstep : useStep (st.block i).kind (st.sees i x) x (state.kindOf i x) use=none) :
    Fails st i (seen++[use]) :=
  ⟨x,by rw [entryFrom_append,htables.current x,Option.bind_some,entryFrom_one,hstep]⟩

/-- One use in the current scope: the table follows the classes of the names,
or a class does not exist. -/
theorem runUse_tables (use : Use)
    (htables : Tables st i seen state) (hchain : ∀ j ≤ i,IsChain st j (st.ancestors j)) :
    match runUse (st.block i).kind (st.ancestors i) i state use with
    | .ok state' => Tables st i (seen++[use]) state'
    | .error _ => Fails st i (seen++[use]) := by
  have hname : ∀ x y : String,y≠x → decide (x=y)=false := fun x y h =>
    decide_eq_false fun heq => h heq.symm
  cases use with
  | param x =>
    simp only [runUse,declareParam]
    cases hkind : state.kindOf i x with
    | none =>
      refine htables.step hchain (.put st i state x (by rintro ⟨⟩)) ?_ (hname x)
      simp [useStep,hkind]
    | some kind =>
      refine htables.fails x ?_
      simp [useStep,hkind]
  | load x =>
    simp only [runUse,getIdForLoad]
    cases hkind : state.kindOf i x with
    | none =>
      refine htables.step hchain (findLocalAndCloseOver_effect htables hchain x) ?_ (hname x)
      simp [useStep,hkind]
    | some kind =>
      refine htables.step hchain (.refl st i state x) ?_ (hname x)
      simp [useStep,hkind]
  | store x | delete x =>
    simp only [runUse,getIdForModification]
    cases hkind : state.kindOf i x with
    | none =>
      refine htables.step hchain (.put st i state x ?_) ?_ (hname x)
      · split <;> rintro ⟨⟩
      · simp [useStep,hkind]
    | some kind =>
      cases kind with
      | globalImplicit =>
        cases hfunc : (st.block i).kind.isFuncLike with
        | true =>
          refine htables.step hchain (.put st i state x (by rintro ⟨⟩)) ?_ (hname x)
          simp [useStep,hkind,hfunc]
        | false =>
          refine htables.step hchain (.refl st i state x) ?_ (hname x)
          simp [useStep,hkind,hfunc]
      | globalExplicit | «local» | cell | free =>
        refine htables.step hchain (.refl st i state x) ?_ (hname x)
        simp [useStep,hkind]
  | global x =>
    rw [runUse]
    have hdeclare (h : state.kindOf i x=none ∨ state.kindOf i x=some .globalExplicit) :
        ∃ state',declareGlobal state (st.ancestors i) i x=.ok state'∧
          Tables st i (seen++[.global x]) state' := by
      have hstep : useStep (st.block i).kind (st.sees i x) x (state.kindOf i x) (.global x)=
          some (some .globalExplicit) := by
        simp [useStep,h]
      cases hm : (state.put i x .globalExplicit).kindOf ((st.ancestors i).getLastD i) x with
      | none =>
        refine ⟨_,?_,htables.step hchain (.put st i state x (by rintro ⟨⟩)) hstep (hname x)⟩
        rcases h with h | h <;> simp only [declareGlobal,h,hm]
      | some kind =>
        refine ⟨_,?_,htables.step hchain (declare_effect state (hchain i (Nat.le_refl i)) hm)
          hstep (hname x)⟩
        rcases h with h | h <;> simp only [declareGlobal,h,hm]
    cases hkind : state.kindOf i x with
    | none =>
      obtain ⟨state',hdecl,hafter⟩ := hdeclare (.inl hkind)
      rw [hdecl]
      exact hafter
    | some kind =>
      cases kind with
      | globalExplicit =>
        obtain ⟨state',hdecl,hafter⟩ := hdeclare (.inr hkind)
        rw [hdecl]
        exact hafter
      | globalImplicit | «local» | cell | free =>
        rw [declareGlobal]
        simp only [hkind]
        refine htables.fails x ?_
        simp [useStep,hkind]
  | nonlocal x =>
    simp only [runUse,declareNonlocal]
    cases Decidable.em ((st.block i).kind=.module) with
    | inl hmodule =>
      rw [if_pos hmodule]
      refine htables.fails x ?_
      simp [useStep,hmodule]
    | inr hmodule =>
      rw [if_neg hmodule]
      cases hkind : state.kindOf i x with
      | none =>
        have heffect := findLocalAndCloseOver_effect htables hchain x
        rw [heffect.current]
        cases hsees : st.sees i x with
        | true =>
          rw [hsees] at heffect
          refine htables.step hchain heffect ?_ (hname x)
          simp [useStep,hkind,hsees,hmodule]
        | false =>
          refine htables.fails x ?_
          simp [useStep,hkind,hsees]
      | some kind =>
        cases kind with
        | free =>
          refine htables.step hchain (.refl st i state x) ?_ (hname x)
          simp [useStep,hkind,hmodule]
        | globalImplicit | globalExplicit | «local» | cell =>
          refine htables.fails x ?_
          simp [useStep,hkind]
  | scope inner body =>
    refine ⟨htables.table,fun x => ?_,htables.fresh,htables.free⟩
    rw [entryFrom_append,htables.current x]
    rfl

/-- The uses of the current scope: the table follows the classes of the names,
or a class does not exist. -/
theorem runUses_tables (hchain : ∀ j ≤ i,IsChain st j (st.ancestors j))
    (uses : List Use) (htables : Tables st i seen state) :
    match runUses (st.block i).kind (st.ancestors i) i state uses with
    | .ok state' => Tables st i (seen++uses) state'
    | .error _ => Fails st i (seen++uses) := by
  induction uses generalizing seen state with
  | nil =>
    rw [append_nil]
    exact htables
  | cons use uses ih =>
    have hone := runUse_tables use htables hchain
    rw [runUses,append_cons]
    cases huse : runUse (st.block i).kind (st.ancestors i) i state use with
    | error e =>
      rw [huse] at hone
      obtain ⟨x,hfail⟩ := hone
      exact ⟨x,by rw [entryFrom_append,hfail,Option.bind_none]⟩
    | ok state' =>
      rw [huse] at hone
      exact ih hone

/-- The list of the compiler while scope `done` is next. -/
structure Linked (body : List Use) (state : State) (done : ℕ) : Prop where
  /-- The module comes first. -/
  root : state.scopes[0]?=some (Scope.mk .module [] body)
  /-- Every other scope was started by one that is done. -/
  parent : ∀ (j : ℕ) (scope : Scope),state.scopes[j+1]?=some scope→
    ∃ p≤j,p < done ∧ scope.ancestors=p::state.ancestors p ∧
      ∃ inside,.scope scope.kind inside∈(state.block p).uses ∧
        scope.uses=implicitUses scope.kind++inside
  complete : ∀ p < done,∀ kind inside,.scope kind inside∈(state.block p).uses→
    ∃ j : ℕ,state.scopes[j]?=some (Scope.mk kind (p::state.ancestors p) (implicitUses kind++inside))

/-- What the list has at a position. -/
theorem State.at (h : state.scopes[j]?=some scope) :
    state.block j=⟨scope.kind,scope.uses⟩ ∧ state.ancestors j=scope.ancestors := by
  rw [State.block,State.ancestors,h]
  exact ⟨rfl,rfl⟩

theorem State.at_append (h : state'.scopes=state.scopes++added) (hj : j < state.scopes.length) :
    state'.block j=state.block j ∧ state'.ancestors j=state.ancestors j := by
  rw [State.block,State.ancestors,h,List.getElem?_append_left hj]
  exact ⟨rfl,rfl⟩

/-- The parent pointers of every scope lead through earlier ones. -/
theorem Linked.chain (hlinked : Linked body state done) (j : ℕ) (hj : j < state.scopes.length) :
    IsChain state j (state.ancestors j) := by
  induction j using Nat.strongRecOn with
  | ind j ih =>
    cases j with
    | zero =>
      rw [(State.at hlinked.root).2]
      trivial
    | succ j =>
      obtain ⟨p,hp,_,hancestors,_⟩ := hlinked.parent j _ (List.getElem?_eq_getElem hj)
      have hchain := ih p (lt_succ_of_le hp) (Nat.lt_of_le_of_lt hp (lt_of_succ_lt hj))
      rw [(State.at (List.getElem?_eq_getElem hj)).2,hancestors]
      exact ⟨lt_succ_of_le hp,rfl,fun a ha => (hchain.member ha).1,hchain.mono (le_succ_of_le hp)⟩

/-- Every scope in the list is one of the module. -/
theorem Linked.path (hlinked : Linked body state done) (j : ℕ) (hj : j < state.scopes.length) :
    Path body (state.block j::state.outer j) := by
  induction j using Nat.strongRecOn with
  | ind j ih =>
    cases j with
    | zero =>
      rw [State.outer,(State.at hlinked.root).1,(State.at hlinked.root).2]
      exact .module
    | succ j =>
      obtain ⟨p,hp,_,hancestors,inside,huse,huses⟩ :=
        hlinked.parent j _ (List.getElem?_eq_getElem hj)
      have hpath := ih p (lt_succ_of_le hp) (Nat.lt_of_le_of_lt hp (lt_of_succ_lt hj))
      have hat := State.at (List.getElem?_eq_getElem hj)
      rw [State.outer,hat.1,hat.2,hancestors,huses]
      exact hpath.inner huse

/-- Every scope of the module is in the list when all scopes are done. -/
theorem Linked.covers (hlinked : Linked body state state.scopes.length) : Covers body state where
  sound := fun j hj => hlinked.path j hj
  complete := fun block outer hpath => by
    have hall : ∀ path,Path body path→∀ block outer,path=block::outer→
        ∃ i < state.scopes.length,state.block i=block ∧ state.outer i=outer := by
      intro path hpath
      induction hpath with
      | module =>
        rintro _ _ ⟨⟩
        have hat := State.at hlinked.root
        refine ⟨0,(List.getElem?_eq_some_iff.mp hlinked.root).1,hat.1,?_⟩
        rw [State.outer,hat.2]
        rfl
      | inner _ huse ih =>
        rintro _ _ ⟨⟩
        obtain ⟨p,hp,hblock,houter⟩ := ih _ _ rfl
        rw [← hblock] at huse
        obtain ⟨j,hscope⟩ := hlinked.complete p hp _ _ huse
        have hat := State.at hscope
        refine ⟨j,(List.getElem?_eq_some_iff.mp hscope).1,hat.1,?_⟩
        rw [State.outer,hat.2,map_cons,hblock,← houter]
        rfl
    exact hall _ hpath block outer rfl

/-- Membership in the scopes that a body starts. -/
theorem mem_newScopes {uses : List Use} :
    scope∈newScopes i ancestors uses↔∃ kind inside,.scope kind inside∈uses ∧
      scope=⟨kind,i::ancestors,implicitUses kind++inside⟩ := by
  rw [newScopes,mem_filterMap]
  constructor
  · rintro ⟨use,huse,h⟩
    cases use with
    | scope kind inside => exact ⟨kind,inside,huse,(Option.some.inj h).symm⟩
    | param | load | store | delete | global | nonlocal => cases h
  · rintro ⟨kind,inside,huse,h⟩
    exact ⟨.scope kind inside,huse,by rw [h]⟩

/-- One more scope is done when the scopes that it starts are added. -/
theorem Linked.step {body : List Use} {state state' : State} {i : ℕ}
    (hlinked : Linked body state i) (hi : i < state.scopes.length)
    (hscopes : state'.scopes=state.scopes++newScopes i (state.ancestors i) (state.block i).uses) :
    Linked body state' (i+1) where
  root := by
    rw [hscopes,List.getElem?_append_left (List.getElem?_eq_some_iff.mp hlinked.root).1]
    exact hlinked.root
  parent := by
    intro j scope h
    rw [hscopes] at h
    cases Nat.lt_or_ge (j+1) state.scopes.length with
    | inl hj =>
      rw [List.getElem?_append_left hj] at h
      obtain ⟨p,hp,hdone,hancestors,inside,huse,huses⟩ := hlinked.parent j scope h
      have hat := State.at_append hscopes (Nat.lt_trans hdone hi)
      rw [← hat.1] at huse
      rw [← hat.2] at hancestors
      exact ⟨p,hp,lt_succ_of_lt hdone,hancestors,inside,huse,huses⟩
    | inr hj =>
      rw [List.getElem?_append_right hj] at h
      obtain ⟨kind,inside,huse,rfl⟩ := mem_newScopes.mp (mem_of_getElem? h)
      have hat := State.at_append hscopes hi
      rw [← hat.1] at huse
      refine ⟨i,le_of_lt_succ (Nat.lt_of_lt_of_le hi hj),lt_succ_self i,?_,inside,huse,rfl⟩
      rw [hat.2]
  complete := by
    intro p hp kind inside huse
    have hp' : p < state.scopes.length := Nat.lt_of_le_of_lt (le_of_lt_succ hp) hi
    have hat := State.at_append hscopes hp'
    rw [hat.1] at huse
    rw [hat.2]
    cases Nat.lt_or_eq_of_le (Nat.le_of_lt_succ hp) with
    | inl hless =>
      obtain ⟨j,h⟩ := hlinked.complete p hless kind inside huse
      refine ⟨j,?_⟩
      rw [hscopes,List.getElem?_append_left (List.getElem?_eq_some_iff.mp h).1]
      exact h
    | inr heq =>
      rw [heq] at huse ⊢
      obtain ⟨j,h⟩ := mem_iff_getElem?.mp (mem_newScopes.mpr ⟨kind,inside,huse,rfl⟩)
      refine ⟨state.scopes.length+j,?_⟩
      rw [hscopes,List.getElem?_append_right (Nat.le_add_right _ _),Nat.add_sub_cancel_left]
      exact h

/-- The state when scope `i` is next. -/
structure Progress (body : List Use) (i : ℕ) (state : State) : Prop where
  /-- The list of scopes. -/
  linked : Linked body state i
  /-- The next scope is in the list or after its end. -/
  le : i ≤ state.scopes.length
  /-- The tables before are complete. -/
  table : ∀ j < i,TableOk state state j
  /-- The other tables are empty. -/
  fresh : ∀ j,i≤j→∀ x,state.kindOf j x=none
  /-- A free name is a variable of the scope around. -/
  free : ∀ j < i,∀ x,state.kindOf j x=some .free→HasOuter state x (state.ancestors j)

/-- The tables when the scope starts. -/
theorem Progress.tables
    (hprogress : Progress body i state) (hchain : ∀ j ≤ i,IsChain state j (state.ancestors j)) :
    Tables state i []
      (if (state.block i).kind=.classDef then state.put i "__class__" .local else state) := by
  generalize hstart : (if (state.block i).kind=.classDef then state.put i "__class__" .local
    else state)=start
  have hself : ∀ x,start.kindOf i x=initialEntry (state.block i).kind x := by
    intro x
    rw [← hstart,initialEntry]
    split
    case isTrue hclass =>
      cases Decidable.em (x="__class__") with
      | inl hx => rw [hx,put_self,if_pos ⟨hclass,rfl⟩]
      | inr hx =>
        rw [put_other state .local (.inr hx),if_neg fun h => hx h.2,
          hprogress.fresh i (Nat.le_refl i)]
    case isFalse hclass =>
      rw [if_neg fun h => hclass h.1,hprogress.fresh i (Nat.le_refl i)]
  have hother : ∀ j≠i,∀ x,start.kindOf j x=state.kindOf j x := by
    intro j hj x
    rw [← hstart]
    split
    · exact put_other state .local (.inl hj)
    · rfl
  refine ⟨?_,?_,?_,?_⟩
  · intro j hj x
    rw [hother j (Nat.ne_of_lt hj)]
    exact hprogress.table j hj x
  · intro x
    rw [hself]
    rfl
  · intro j hj x
    rw [hother j (Nat.ne_of_gt hj)]
    exact hprogress.fresh j (Nat.le_of_lt hj) x
  · intro j hj x hfree
    cases Nat.lt_or_eq_of_le hj with
    | inr heq =>
      rw [heq,hself,initialEntry] at hfree
      split at hfree <;> cases hfree
    | inl hless =>
      rw [hother j (Nat.ne_of_lt hless)] at hfree
      refine (hprogress.free j hless x hfree).preserved (hchain j hj) fun k hk => ?_
      rw [hother k (Nat.ne_of_lt (Nat.lt_trans hk hless))]
      exact .same _

theorem Linked.outer_append (hlinked : Linked body state done)
    (hscopes : state'.scopes=state.scopes++added) (hj : j < state.scopes.length) :
    state'.outer j=state.outer j := by
  rw [State.outer,State.outer,(State.at_append hscopes hj).2]
  refine map_congr_left fun a ha => ?_
  have hless := ((hlinked.chain j hj).member ha).1
  exact (State.at_append hscopes (Nat.lt_trans hless hj)).1

theorem TableOk.append (hlinked : Linked body st done)
    (hscopes : state'.scopes=st.scopes++added) (hj : j < st.scopes.length)
    (htable : TableOk st state' j) : TableOk state' state' j := by
  intro x
  have hat := State.at_append hscopes hj
  rw [State.sees,hlinked.outer_append hscopes hj,hat.1,hat.2]
  exact htable x

/-- Compiling the next scope in the pass. -/
theorem compileScope_progress
    (hprogress : Progress body i state) (hscope : state.scopes[i]?=some scope) :
    match compileScope state i scope with
    | .ok state' => Progress body (i+1) state' ∧
      state'.scopes=state.scopes++newScopes i (state.ancestors i) (state.block i).uses
    | .error _ => Fails state i (state.block i).uses := by
  have hi := (List.getElem?_eq_some_iff.mp hscope).1
  have hat := State.at hscope
  have hchain : ∀ j ≤ i,IsChain state j (state.ancestors j) := fun j hj =>
    hprogress.linked.chain j (Nat.lt_of_le_of_lt hj hi)
  have hrun := runUses_tables hchain (state.block i).uses (hprogress.tables hchain)
  have hkind : scope.kind=(state.block i).kind := by rw [hat.1]
  have huses : scope.uses=(state.block i).uses := by rw [hat.1]
  rw [compileScope,hkind,huses,← hat.2]
  generalize hstart : (if (state.block i).kind=.classDef then state.put i "__class__" .local
    else state)=start at hrun ⊢
  have hstart' : start.scopes=state.scopes := by
    rw [← hstart]
    split <;> rfl
  cases hresult : runUses (state.block i).kind (state.ancestors i) i start
      (state.block i).uses with
  | error e =>
    rw [hresult] at hrun
    exact hrun
  | ok state' =>
    rw [hresult] at hrun
    have hscopes := runUses_scopes hresult
    rw [hstart'] at hscopes
    refine ⟨⟨hprogress.linked.step hi hscopes,?_,?_,?_,?_⟩,hscopes⟩
    · rw [hscopes,length_append]
      exact Nat.le_trans hi (Nat.le_add_right _ _)
    · intro j hj
      have hj' := Nat.lt_of_le_of_lt (le_of_lt_succ hj) hi
      refine TableOk.append hprogress.linked hscopes hj' ?_
      cases Nat.lt_or_eq_of_le (Nat.le_of_lt_succ hj) with
      | inl hless => exact hrun.table j hless
      | inr heq =>
        rw [heq]
        exact fun x => ⟨state'.kindOf i x,hrun.current x,.same _⟩
    · exact fun j hj => hrun.fresh j hj
    · intro j hj x hfree
      have hj' := Nat.lt_of_le_of_lt (Nat.le_of_lt_succ hj) hi
      rw [(State.at_append hscopes hj').2]
      exact hrun.free j (le_of_lt_succ hj) x hfree

/-- The scopes that are still to come, with those inside. -/
def pending (scopes : List Scope) : ℕ := (scopes.map fun scope => scopeCounts scope.uses+1).sum

theorem scopeCounts_implicit (kind : ScopeKind) (body : List Use) :
    scopeCounts (implicitUses kind++body)=scopeCounts body := by
  cases kind <;> simp [implicitUses,scopeCounts,Use.scopeCount]

/-- The scopes that a body starts, with those inside. -/
theorem pending_newScopes (i : ℕ) (ancestors : List ℕ) (uses : List Use) :
    pending (newScopes i ancestors uses)=scopeCounts uses := by
  induction uses with
  | nil => rfl
  | cons use uses ih =>
    rw [newScopes_cons,pending,map_append,sum_append,← pending,← pending,ih,scopeCounts]
    cases use with
    | scope kind body =>
      rw [Use.scopeCount,← scopeCounts_implicit kind body]
      rfl
    | param | load | store | delete | global | nonlocal => rfl

/-- The loop over the scopes ends with all of them done, or with a name that
has no class. -/
theorem compileScopes_progress (fuel : ℕ)
    (hprogress : Progress body i state) (hfuel : pending (state.scopes.drop i)=fuel) :
    match compileScopes fuel i state with
    | .ok state' => Progress body state'.scopes.length state'
    | .error _ => ∃ block outer x,Path body (block::outer) ∧
      entry block (visible x outer) x=none := by
  induction fuel generalizing i state with
  | zero =>
    rw [compileScopes]
    have hlength : i=state.scopes.length := by
      refine Nat.le_antisymm hprogress.le (Nat.le_of_not_lt fun hi => ?_)
      rw [drop_eq_getElem_cons hi] at hfuel
      rw [pending,map_cons,sum_cons] at hfuel
      omega
    rw [hlength] at hprogress
    exact hprogress
  | succ fuel ih =>
    rw [compileScopes]
    cases hscope : state.scopes[i]? with
    | none =>
      have hlength := Nat.le_antisymm hprogress.le (List.getElem?_eq_none_iff.mp hscope)
      rw [hlength] at hprogress
      exact hprogress
    | some scope =>
      have hi := (List.getElem?_eq_some_iff.mp hscope).1
      have hone := compileScope_progress hprogress hscope
      dsimp only
      cases hresult : compileScope state i scope with
      | error e =>
        rw [hresult] at hone
        obtain ⟨x,hfail⟩ := hone
        exact ⟨state.block i,state.outer i,x,hprogress.linked.path i hi,hfail⟩
      | ok state' =>
        rw [hresult] at hone
        refine ih hone.1 ?_
        have huses : (state.block i).uses=scope.uses := by rw [(State.at hscope).1]
        have hsum : pending (state'.scopes.drop (i+1))=
            pending (state.scopes.drop (i+1))+scopeCounts scope.uses := by
          rw [hone.2,drop_append_of_le_length hi,pending,map_append,sum_append,
            ← pending,← pending,pending_newScopes,huses]
        have hcons := drop_eq_getElem_cons hi
        rw [(List.getElem?_eq_some_iff.mp hscope).2] at hcons
        rw [hcons,pending,map_cons,sum_cons,← pending] at hfuel
        omega

/-- The state before the pass. -/
theorem initial_progress (body : List Use) :
    Progress body 0 ⟨[⟨.module,[],body⟩],fun _ _ => none⟩ where
  linked := ⟨rfl,nofun,nofun⟩
  le := zero_le 1
  table := nofun
  fresh := fun _ _ _ => rfl
  free := nofun

/-- The pass of a module fills all tables, or some name has no class. -/
theorem scopePass_progress (body : List Use) :
    match scopePass body with
    | .ok state => Progress body state.scopes.length state
    | .error _ => ∃ block outer x,Path body (block::outer) ∧
      entry block (visible x outer) x=none := by
  refine compileScopes_progress (scopeCounts body+1) (initial_progress body) ?_
  rfl

end MicroPython.ScopePass
