import MicroPython.ScopeTables

/-!
# Python's classes in the tables

The first use of a name decides its entry. In a scope that Python accepts this
leaves few cases, and they are Python's classes unless the first use is a load
of a name that is bound later, or a class hides a function around it.
-/

namespace MicroPython.ScopePass

open Option List

variable {kind : ScopeKind} {vis : Bool} {x : String} {e : Option IdKind}
  {uses before after : List Use} {block : Block} {use : Use} {outer : List Block}

/-- Uses of other names give no class. -/
theorem entryFrom_skip (h : ∀ use∈uses,use.mentions x=false) :
    entryFrom kind vis x e uses=some e := by
  induction uses with
  | nil => rfl
  | cons use uses ih =>
    rw [entryFrom,useStep_other (h use mem_cons_self)]
    exact ih fun u hu => h u (mem_cons_of_mem use hu)

theorem entryFrom_keep (h : ∀ use∈uses,useStep kind vis x e use=some e) :
    entryFrom kind vis x e uses=some e := by
  induction uses with
  | nil => rfl
  | cons use uses ih =>
    rw [entryFrom,h use mem_cons_self]
    exact ih fun u hu => h u (mem_cons_of_mem use hu)

/-- A scope that uses a name has a first use of it. -/
theorem Block.mentions_first (h : block.mentions x) :
    ∃ before use after,block.uses=before++use::after ∧
      (∀ u∈before,u.mentions x=false) ∧ use.mentions x=true := by
  cases hfind : block.uses.find? (Use.mentions x) with
  | none =>
    obtain ⟨use,huse,hmentions⟩ := h
    exact absurd hmentions (List.find?_eq_none.mp hfind use huse)
  | some use =>
    obtain ⟨hmentions,before,after,huses,hbefore⟩ := List.find?_eq_some_iff_append.mp hfind
    exact ⟨before,use,after,huses,fun u hu => by simpa using hbefore u hu,hmentions⟩

/-- Uses of a name that are neither parameters nor declarations. -/
def Plain (x : String) (uses : List Use) : Prop :=
  .param x∉uses ∧ .global x∉uses ∧ .nonlocal x∉uses

/-- Plain uses keep a local, a free and an explicit global name. -/
theorem useStep_plain {k : IdKind} (hkind : k≠.globalImplicit) (h : Plain x [use]) :
    useStep kind vis x (some k) use=some (some k) := by
  cases use with
  | scope inner body => rfl
  | param y | global y | nonlocal y =>
    refine if_neg fun hy => ?_
    rw [hy] at h
    simp [Plain] at h
  | load y => simp [useStep]
  | store y | delete y => simp [useStep,hkind]

theorem plain_cons : Plain x (use::uses)↔Plain x [use] ∧ Plain x uses := by
  simp only [Plain,mem_cons,not_mem_nil,or_false,not_or]
  tauto

/-- Plain uses keep a local, a free and an explicit global name. -/
theorem entryFrom_plain {kind : ScopeKind} {vis : Bool} {x : String} {k : IdKind}
    {uses : List Use} (hkind : k≠.globalImplicit) (h : Plain x uses) :
    entryFrom kind vis x (some k) uses=some (some k) := by
  induction uses with
  | nil => rfl
  | cons use uses ih =>
    rw [plain_cons] at h
    rw [entryFrom,useStep_plain hkind h.1]
    exact ih h.2

/-- Without bindings in a function an implicit global stays one. -/
theorem entryFrom_unbound {kind : ScopeKind} {vis : Bool} {x : String} {uses : List Use}
    (h : Plain x uses) (hbinds : kind.isFuncLike=true→∀ use∈uses,use.binds x=false) :
    entryFrom kind vis x (some .globalImplicit) uses=some (some .globalImplicit) := by
  refine entryFrom_keep fun use huse => ?_
  cases use with
  | scope inner body => rfl
  | load y => simp [useStep]
  | param y =>
    refine if_neg fun hy => h.1 ?_
    rw [← hy]
    exact huse
  | global y =>
    refine if_neg fun hy => h.2.1 ?_
    rw [← hy]
    exact huse
  | nonlocal y =>
    refine if_neg fun hy => h.2.2 ?_
    rw [← hy]
    exact huse
  | store y | delete y =>
    rw [useStep]
    split
    case isFalse hy => rfl
    case isTrue hy =>
      rw [if_pos (.inr rfl)]
      cases hfunc : kind.isFuncLike with
      | false => rfl
      | true => exact absurd hy (of_decide_eq_false (hbinds hfunc _ huse))

/-- An implicit global of a function becomes local when a later use binds it. -/
theorem entryFrom_bound
    (h : Plain x uses) (hfunc : kind.isFuncLike=true) (hbinds : ∃ use∈uses,use.binds x=true) :
    entryFrom kind vis x (some .globalImplicit) uses=some (some .local) := by
  induction uses with
  | nil => simp at hbinds
  | cons use uses ih =>
    rw [plain_cons] at h
    rw [entryFrom]
    cases hbind : use.binds x with
    | true =>
      have hstep : useStep kind vis x (some .globalImplicit) use=some (some .local) := by
        cases use with
        | load | global | nonlocal | scope => cases hbind
        | param y => simp_all [Use.binds,Plain]
        | store y | delete y =>
          rw [useStep,if_pos (of_decide_eq_true hbind),if_pos (.inr rfl),if_pos hfunc]
      rw [hstep]
      exact entryFrom_plain (by rintro ⟨⟩) h.2
    | false =>
      have hone := @entryFrom_unbound kind vis x [use] h.1 fun _ u hu => by
        rw [mem_singleton.mp hu,hbind]
      rw [entryFrom_one] at hone
      rw [hone]
      refine ih h.2 ?_
      obtain ⟨u,hu,hbinds⟩ := hbinds
      cases mem_cons.mp hu with
      | inl heq =>
        rw [heq,hbind] at hbinds
        cases hbinds
      | inr hmem => exact ⟨u,hmem,hbinds⟩

/-- In an accepted scope the uses after the first one of a name are plain, but
for repetitions of a declaration. -/
theorem PyAccepts.after_first (haccepts : PyAccepts block outer)
    (huses : block.uses=before++use::after) (hmentions : use.mentions x=true) :
    .param x∉after ∧ (.global x∈after → use=.global x) ∧ (.nonlocal x∈after → use=.nonlocal x) := by
  have hsplit : ∀ u∈after,∃ left right,block.uses=left++u::right ∧ use∈left := by
    intro u hu
    obtain ⟨left,right,hafter⟩ := append_of_mem hu
    refine ⟨before++use::left,right,?_,by simp⟩
    rw [huses,hafter,append_assoc,cons_append]
  refine ⟨fun h => ?_,fun h => ?_,fun h => ?_⟩
  · obtain ⟨left,right,hleft,hmem⟩ := hsplit _ h
    have hfalse := haccepts.param left x right hleft use hmem
    rw [hmentions] at hfalse
    cases hfalse
  · obtain ⟨left,right,hleft,hmem⟩ := hsplit _ h
    exact haccepts.global left x right hleft use hmem hmentions
  · obtain ⟨left,right,hleft,hmem⟩ := hsplit _ h
    exact haccepts.nonlocal left x right hleft use hmem hmentions

/-- The class of a name after all uses of an accepted scope. -/
inductive EntryCase (block : Block) (vis : Bool) (x : String) : Option (Option IdKind)→Prop where
  | absent (h : ¬block.mentions x) : EntryCase block vis x (some (initialEntry block.kind x))
  /-- A use of `__class__` in a class. -/
  | classCell (hkind : block.kind=.classDef) (hx : x="__class__") (hmentions : block.mentions x)
    (r : Option (Option IdKind)) (hr : r=none ∨ r=some (some .local)) : EntryCase block vis x r
  | global (hmentions : block.mentions x) (h : block.declaresGlobal x) :
    EntryCase block vis x (some (some .globalExplicit))
  | nonlocal (hmentions : block.mentions x) (hglobal : ¬block.declaresGlobal x)
    (h : block.declaresNonlocal x) :
    EntryCase block vis x (if vis=true then some (some .free) else none)
  /-- Loaded before it is bound while the search finds a variable. -/
  | early (hmentions : block.mentions x) (h : block.bindsOwn x) (hloads : block.loadsFirst x)
    (hvis : vis=true) : EntryCase block vis x (some (some .free))
  | own (hmentions : block.mentions x) (h : block.bindsOwn x)
    (hloads : ¬(block.loadsFirst x ∧ vis=true)) : EntryCase block vis x
      (some (some (if block.kind.isFuncLike=true then .local else .globalImplicit)))
  | unbound (hmentions : block.mentions x) (hglobal : ¬block.declaresGlobal x)
    (hnonlocal : ¬block.declaresNonlocal x) (hbinds : ¬block.bindsOwn x) :
    EntryCase block vis x (some (some (if vis=true then .free else .globalImplicit)))

/-- The `__class__` of a class stays local, or a use of it fails. -/
theorem entryFrom_local (kind : ScopeKind) (vis : Bool) (x : String) (uses : List Use) :
    entryFrom kind vis x (some .local) uses=none ∨
      entryFrom kind vis x (some .local) uses=some (some .local) := by
  induction uses with
  | nil => exact .inr rfl
  | cons use uses ih =>
    have hstep : useStep kind vis x (some .local) use=none ∨
        useStep kind vis x (some .local) use=some (some .local) := by
      cases use with
      | scope inner body => exact .inr rfl
      | param y | load y | store y | delete y | global y | nonlocal y =>
        cases Decidable.em (y=x) with
        | inl h => simp [useStep,h]
        | inr h => exact .inr (if_neg h)
    rw [entryFrom]
    cases hstep with
    | inl h =>
      rw [h]
      exact .inl rfl
    | inr h =>
      rw [h]
      exact ih

theorem find_first (huses : uses=before++use::after) (hbefore : ∀ u∈before,u.mentions x=false)
    (huse : use.mentions x=true) : uses.find? (Use.mentions x)=some use :=
  List.find?_eq_some_iff_append.mpr ⟨huse,before,after,huses,fun u hu => by rw [hbefore u hu]; rfl⟩

theorem entry_first {block : Block} {vis : Bool} {x : String} {before after : List Use}
    {use : Use} (hcell : ¬(block.kind=.classDef ∧ x="__class__"))
    (huses : block.uses=before++use::after) (hbefore : ∀ u∈before,u.mentions x=false) :
    entry block vis x=(useStep block.kind vis x none use).bind fun e =>
      entryFrom block.kind vis x e after := by
  rw [entry,initialEntry,if_neg hcell,huses,entryFrom_append,entryFrom_skip hbefore,
    bind_some,entryFrom]
  cases useStep block.kind vis x none use <;> rfl

theorem Use.binds_mentions (h : use.binds x=true) : use.mentions x=true := by
  cases use with
  | param y | store y | delete y => exact h
  | load | global | nonlocal | scope => cases h

/-- The case of a name that is first declared global. -/
theorem entry_global (haccepts : PyAccepts block outer) (vis : Bool)
    (hcell : ¬(block.kind=.classDef ∧ x="__class__"))
    (huses : block.uses=before++.global x::after) (hbefore : ∀ u∈before,u.mentions x=false) :
    entry block vis x=some (some .globalExplicit) := by
  have hafter := haccepts.after_first huses (decide_eq_true rfl)
  rw [entry_first hcell huses hbefore,useStep,if_pos rfl,if_pos (.inl rfl),bind_some]
  refine entryFrom_keep fun u hu => ?_
  cases u with
  | scope inner body => rfl
  | load y => simp [useStep]
  | store y | delete y => simp [useStep]
  | global y => simp [useStep]
  | param y =>
    refine if_neg fun hy => hafter.1 ?_
    rw [← hy]
    exact hu
  | nonlocal y =>
    refine if_neg fun hy => ?_
    rw [hy] at hu
    cases hafter.2.2 hu

/-- The case of a name that is first declared nonlocal. -/
theorem entry_nonlocal (haccepts : PyAccepts block outer) (vis : Bool)
    (hcell : ¬(block.kind=.classDef ∧ x="__class__"))
    (huses : block.uses=before++.nonlocal x::after) (hbefore : ∀ u∈before,u.mentions x=false) :
    entry block vis x=if vis=true then some (some .free) else none := by
  have hafter := haccepts.after_first huses (decide_eq_true rfl)
  have hmodule : block.kind≠.module := (haccepts.enclosed x (by
    rw [Block.declaresNonlocal,huses]
    exact mem_append_right before mem_cons_self)).1
  rw [entry_first hcell huses hbefore,useStep,if_pos rfl]
  cases vis with
  | false =>
    rw [if_neg (by simp),if_neg (by simp)]
    rfl
  | true =>
    rw [if_pos ⟨hmodule,.inr ⟨rfl,rfl⟩⟩,if_pos rfl,bind_some]
    refine entryFrom_keep fun u hu => ?_
    cases u with
    | scope inner body => rfl
    | load y => simp [useStep]
    | store y | delete y => simp [useStep]
    | nonlocal y => simp [useStep,hmodule]
    | param y =>
      refine if_neg fun hy => hafter.1 ?_
      rw [← hy]
      exact hu
    | global y =>
      refine if_neg fun hy => ?_
      rw [hy] at hu
      cases hafter.2.1 hu

/-- The case of a name whose first use is no declaration. -/
theorem entry_plain (haccepts : PyAccepts block outer) (vis : Bool)
    (hcell : ¬(block.kind=.classDef ∧ x="__class__"))
    (huses : block.uses=before++use::after) (hbefore : ∀ u∈before,u.mentions x=false)
    (huse : use.mentions x=true) (hglobal : use≠.global x) (hnonlocal : use≠.nonlocal x) :
    EntryCase block vis x (entry block vis x) := by
  have hmentions : block.mentions x :=
    ⟨use,by rw [huses]; exact mem_append_right before mem_cons_self,huse⟩
  obtain ⟨hparam,hafterGlobal,hafterNonlocal⟩ := haccepts.after_first huses huse
  have hplain : Plain x after :=
    ⟨hparam,fun h => hglobal (hafterGlobal h),fun h => hnonlocal (hafterNonlocal h)⟩
  -- a use of the name stands first or after
  have hmem : ∀ u∈block.uses,u.mentions x=true → u=use ∨ u∈after := by
    intro u hu hux
    rw [huses] at hu
    cases mem_append.mp hu with
    | inl h =>
      rw [hbefore u h] at hux
      cases hux
    | inr h => exact mem_cons.mp h
  have hnoGlobal : ¬block.declaresGlobal x := fun h =>
    (hmem _ h (decide_eq_true rfl)).elim (fun heq => hglobal heq.symm) hplain.2.1
  have hnoNonlocal : ¬block.declaresNonlocal x := fun h =>
    (hmem _ h (decide_eq_true rfl)).elim (fun heq => hnonlocal heq.symm) hplain.2.2
  have hown : (∃ u∈block.uses,u.binds x=true) → block.bindsOwn x := fun h =>
    ⟨hnoGlobal,hnoNonlocal,h⟩
  have hin : use∈block.uses := by
    rw [huses]
    exact mem_append_right before mem_cons_self
  have hfirst : block.loadsFirst x → use=.load x := by
    rintro ⟨before',after',huses',hbefore'⟩
    have h₁ := find_first huses hbefore huse
    rw [find_first huses' hbefore' (decide_eq_true rfl)] at h₁
    exact (Option.some.inj h₁).symm
  have hentry := @entry_first block vis x before after use hcell huses hbefore
  cases use with
  | scope inner body => cases huse
  | global y => exact absurd (congrArg Use.global (of_decide_eq_true huse)) hglobal
  | nonlocal y => exact absurd (congrArg Use.nonlocal (of_decide_eq_true huse)) hnonlocal
  | param y =>
    obtain rfl : y=x := of_decide_eq_true huse
    have hfunc := haccepts.funcParam y hin
    rw [useStep,if_pos rfl,if_pos rfl,bind_some,
      @entryFrom_plain block.kind vis y .local after (by rintro ⟨⟩) hplain] at hentry
    have hcase : EntryCase block vis y
        (some (some (if block.kind.isFuncLike=true then .local else .globalImplicit))) :=
      .own hmentions (hown ⟨_,hin,huse⟩) fun h => by cases hfirst h.1
    rw [if_pos hfunc] at hcase
    rw [hentry]
    exact hcase
  | store y | delete y =>
    obtain rfl : y=x := of_decide_eq_true huse
    have hcase : EntryCase block vis y
        (some (some (if block.kind.isFuncLike=true then .local else .globalImplicit))) :=
      .own hmentions (hown ⟨_,hin,huse⟩) fun h => by cases hfirst h.1
    rw [useStep,if_pos rfl,if_pos (.inl rfl),bind_some] at hentry
    rw [hentry]
    cases hfunc : block.kind.isFuncLike with
    | true =>
      rw [hfunc,if_pos rfl] at hcase
      rw [if_pos rfl,@entryFrom_plain block.kind vis y .local after (by rintro ⟨⟩) hplain]
      exact hcase
    | false =>
      rw [hfunc] at hcase
      rw [if_neg (by rintro ⟨⟩),entryFrom_unbound hplain fun h => by rw [hfunc] at h; cases h]
      exact hcase
  | load y =>
    obtain rfl : y=x := of_decide_eq_true huse
    have hloads : block.loadsFirst y := ⟨before,after,huses,hbefore⟩
    have hbinds : (∃ u∈block.uses,u.binds y=true)↔∃ u∈after,u.binds y=true := by
      constructor
      · rintro ⟨u,hu,hbind⟩
        cases hmem u hu (Use.binds_mentions hbind) with
        | inl h =>
          rw [h] at hbind
          cases hbind
        | inr h => exact ⟨u,h,hbind⟩
      · rintro ⟨u,hu,hbind⟩
        refine ⟨u,?_,hbind⟩
        rw [huses]
        exact mem_append_right before (mem_cons_of_mem _ hu)
    have hunbound : ¬block.bindsOwn y→EntryCase block vis y
        (some (some (if vis=true then .free else .globalImplicit))) :=
      .unbound hmentions hnoGlobal hnoNonlocal
    rw [useStep,if_pos rfl,bind_some,getD_none] at hentry
    rw [hentry]
    cases vis with
    | true =>
      rw [if_pos rfl] at hunbound ⊢
      rw [@entryFrom_plain block.kind true y .free after (by rintro ⟨⟩) hplain]
      cases Classical.em (block.bindsOwn y) with
      | inl h => exact .early hmentions h hloads rfl
      | inr h => exact hunbound h
    | false =>
      rw [if_neg (by rintro ⟨⟩)] at hunbound ⊢
      cases Classical.em (∃ u∈after,u.binds y=true) with
      | inr h =>
        rw [entryFrom_unbound hplain fun _ u hu => Bool.eq_false_iff.mpr fun hu' => h ⟨u,hu,hu'⟩]
        exact hunbound fun hown' => h (hbinds.mp hown'.2.2)
      | inl h =>
        have hcase : EntryCase block false y
            (some (some (if block.kind.isFuncLike=true then .local else .globalImplicit))) :=
          .own hmentions (hown (hbinds.mpr h)) fun h => by cases h.2
        cases hfunc : block.kind.isFuncLike with
        | true =>
          rw [hfunc,if_pos rfl] at hcase
          rw [entryFrom_bound hplain hfunc h]
          exact hcase
        | false =>
          rw [hfunc] at hcase
          rw [entryFrom_unbound hplain fun h => by rw [hfunc] at h; cases h]
          exact hcase

/-- The case of every name of an accepted scope. -/
theorem entry_case (haccepts : PyAccepts block outer)
    (vis : Bool) (x : String) : EntryCase block vis x (entry block vis x) := by
  cases Classical.em (block.mentions x) with
  | inr hmentions =>
    have hskip : ∀ use∈block.uses,use.mentions x=false := fun use huse =>
      Bool.eq_false_iff.mpr fun h => hmentions ⟨use,huse,h⟩
    rw [entry,entryFrom_skip hskip]
    exact .absent hmentions
  | inl hmentions =>
    cases Decidable.em (block.kind=.classDef ∧ x="__class__") with
    | inl hcell =>
      refine .classCell hcell.1 hcell.2 hmentions _ ?_
      rw [entry,initialEntry,if_pos hcell]
      exact entryFrom_local block.kind vis x block.uses
    | inr hcell =>
      obtain ⟨before,use,after,huses,hbefore,huse⟩ := Block.mentions_first hmentions
      have hin : use∈block.uses := by
        rw [huses]
        exact mem_append_right before mem_cons_self
      cases Classical.em (use=.global x) with
      | inl hglobal =>
        rw [hglobal] at huses hin
        rw [entry_global haccepts vis hcell huses hbefore]
        exact .global hmentions hin
      | inr hglobal =>
        cases Classical.em (use=.nonlocal x) with
        | inr hnonlocal =>
          exact entry_plain haccepts vis hcell huses hbefore huse hglobal hnonlocal
        | inl hnonlocal =>
          have hafter := (haccepts.after_first huses huse).2.1
          have hnoGlobal : ¬block.declaresGlobal x := by
            intro h
            rw [Block.declaresGlobal,huses] at h
            cases mem_append.mp h with
            | inl h =>
              have hfalse := hbefore _ h
              simp [Use.mentions] at hfalse
            | inr h =>
              cases mem_cons.mp h with
              | inl h => exact hglobal h.symm
              | inr h => exact hglobal (hafter h)
          rw [hnonlocal] at huses hin
          rw [entry_nonlocal haccepts vis hcell huses hbefore]
          exact .nonlocal hmentions hnoGlobal hin

/-- Python accepts a path of scopes, and all of them are safe. -/
def AllSafe : List Block→Prop
  | [] => True
  | block::outer => PyAccepts block outer ∧ Safe block outer ∧ AllSafe outer

/-- The class of a name in a safe scope. -/
inductive SafeEntry (block : Block) (outer : List Block) (x : String) : Option IdKind→Prop where
  | absent (h : ¬block.mentions x) : SafeEntry block outer x (initialEntry block.kind x)
  | global (hmentions : block.mentions x) (h : block.declaresGlobal x) :
    SafeEntry block outer x (some .globalExplicit)
  | nonlocal (hmentions : block.mentions x) (hglobal : ¬block.declaresGlobal x)
    (h : block.declaresNonlocal x) (henclosed : PlainEnclosed x outer) :
    SafeEntry block outer x (some .free)
  | own (hmentions : block.mentions x) (h : block.bindsOwn x) : SafeEntry block outer x
      (some (if block.kind.isFuncLike=true then .local else .globalImplicit))
  /-- Only loaded, and bound in an enclosing function. -/
  | enclosed (hmentions : block.mentions x) (hglobal : ¬block.declaresGlobal x)
    (hnonlocal : ¬block.declaresNonlocal x) (hbinds : ¬block.bindsOwn x)
    (henclosed : PlainEnclosed x outer) : SafeEntry block outer x (some .free)
  /-- Only loaded, and bound nowhere around. -/
  | unbound (hmentions : block.mentions x) (hglobal : ¬block.declaresGlobal x)
    (hnonlocal : ¬block.declaresNonlocal x) (hbinds : ¬block.bindsOwn x)
    (henclosed : ¬PyEnclosed x outer) : SafeEntry block outer x (some .globalImplicit)

/-- The plain search finds only what Python's finds. -/
theorem PlainEnclosed.py (h : PlainEnclosed x outer) : PyEnclosed x outer := by
  induction outer with
  | nil => exact h
  | cons block outer ih =>
    cases outer with
    | nil => exact h
    | cons next outer =>
      cases h with
      | inl h => exact .inl h
      | inr h => exact .inr ⟨fun hglobal => h.1 hglobal.2,ih h.2.2⟩

/-- A declared name is not bound by the scope. -/
theorem Block.declaresNonlocal.not_bindsOwn
    (h : block.declaresNonlocal x) : ¬block.bindsOwn x := fun hbinds => hbinds.2.1 h

/-- Every name of a safe scope has a class. -/
theorem safe_entry (haccepts : PyAccepts block outer)
    (hsafe : Safe block outer) (hvis : vis=true↔PlainEnclosed x outer) :
    ∃ e,entry block vis x=some e ∧ SafeEntry block outer x e := by
  have hcase := entry_case haccepts vis x
  generalize entry block vis x=r at hcase
  cases hcase with
  | absent h => exact ⟨_,rfl,.absent h⟩
  | classCell hkind hx hmentions => exact absurd hx (hsafe.noClassCell x hkind hmentions)
  | global hmentions h => exact ⟨_,rfl,.global hmentions h⟩
  | nonlocal hmentions hglobal h =>
    have henclosed := hsafe.notHidden x hmentions hglobal h.not_bindsOwn (haccepts.enclosed x h).2
    rw [if_pos (hvis.mpr henclosed)]
    exact ⟨_,rfl,.nonlocal hmentions hglobal h henclosed⟩
  | early hmentions h hloads htrue =>
    exact absurd (hvis.mp htrue) (hsafe.noEarlyLoad x h hloads)
  | own hmentions h => exact ⟨_,rfl,.own hmentions h⟩
  | unbound hmentions hglobal hnonlocal hbinds =>
    refine ⟨_,rfl,?_⟩
    cases vis with
    | true => exact .enclosed hmentions hglobal hnonlocal hbinds (hvis.mp rfl)
    | false =>
      refine .unbound hmentions hglobal hnonlocal hbinds fun h => ?_
      cases hvis.mpr (hsafe.notHidden x hmentions hglobal hbinds h)

/-- A bound name is used. -/
theorem Block.bindsOwn.mentions (h : block.bindsOwn x) : block.mentions x := by
  obtain ⟨use,huse,hbinds⟩ := h.2.2
  exact ⟨use,huse,Use.binds_mentions hbinds⟩

/-- A safe class without a use of `__class__` has it as its only local. -/
theorem SafeEntry.local_iff (hsafe : Safe block outer) (hentry : SafeEntry block outer x e) :
    e=some .local↔block.bindsForInner x := by
  have hcell : block.mentions x→¬(block.kind=.classDef ∧ x="__class__") := fun hmentions h =>
    hsafe.noClassCell x h.1 hmentions h.2
  cases hentry with
  | absent h =>
    rw [initialEntry]
    split
    case isTrue hclass => exact iff_of_true rfl (.inr hclass)
    case isFalse hclass =>
      refine iff_of_false (by rintro ⟨⟩) fun hinner => ?_
      exact hinner.elim (fun hown => h hown.2.mentions) hclass
  | global hmentions h =>
    refine iff_of_false (by rintro ⟨⟩) fun hinner => ?_
    exact hinner.elim (fun hown => hown.2.1 h) (hcell hmentions)
  | nonlocal hmentions hglobal h =>
    refine iff_of_false (by rintro ⟨⟩) fun hinner => ?_
    exact hinner.elim (fun hown => hown.2.2.1 h) (hcell hmentions)
  | own hmentions h =>
    cases hfunc : block.kind.isFuncLike with
    | true => exact iff_of_true rfl (.inl ⟨hfunc,h⟩)
    | false =>
      refine iff_of_false (by rintro ⟨⟩) fun hinner => ?_
      refine hinner.elim (fun hown => ?_) (hcell hmentions)
      rw [hfunc] at hown
      cases hown.1
  | enclosed hmentions _ _ hbinds | unbound hmentions _ _ hbinds =>
    refine iff_of_false (by rintro ⟨⟩) fun hinner => ?_
    exact hinner.elim (fun hown => hbinds hown.2) (hcell hmentions)

/-- No class of a safe scope is a cell before inner scopes are compiled. -/
theorem SafeEntry.ne_cell (hentry : SafeEntry block outer x e) : e≠some .cell := by
  cases hentry with
  | absent h =>
    rw [initialEntry]
    split <;> rintro ⟨⟩
  | own hmentions h => split <;> rintro ⟨⟩
  | global | nonlocal | enclosed | unbound => rintro ⟨⟩

/-- The search of the compiler is the plain one where all scopes are safe. -/
theorem visible_iff (hsafe : AllSafe outer) (x : String) :
    visible x outer=true↔PlainEnclosed x outer := by
  induction outer with
  | nil => exact iff_of_false (by rintro ⟨⟩) id
  | cons block outer ih =>
    cases outer with
    | nil => exact iff_of_false (by rintro ⟨⟩) id
    | cons next outer =>
      obtain ⟨haccepts,hblock,hrest⟩ := hsafe
      have hvis := ih hrest
      obtain ⟨e,hentry,hcase⟩ := safe_entry haccepts hblock hvis
      have hlocal := hcase.local_iff hblock
      rw [visible,hentry,PlainEnclosed,← hlocal]
      generalize visible x (next::outer)=vis at hvis
      dsimp only
      cases hcase with
      | absent h =>
        rw [initialEntry]
        split
        · exact iff_of_true rfl (.inl rfl)
        · refine hvis.trans ⟨fun hplain => .inr ⟨?_,fun hbinds => h hbinds.mentions,hplain⟩,?_⟩
          · exact fun hglobal => h ⟨_,hglobal,decide_eq_true rfl⟩
          · exact fun hor => hor.elim (by rintro ⟨⟩) fun hplain => hplain.2.2
      | global hmentions h => exact iff_of_false (by rintro ⟨⟩) (by simp [h])
      | nonlocal hmentions hglobal h henclosed =>
        exact iff_of_true rfl (.inr ⟨hglobal,h.not_bindsOwn,henclosed⟩)
      | own hmentions h =>
        cases hfunc : block.kind.isFuncLike with
        | true => exact iff_of_true rfl (.inl rfl)
        | false => exact iff_of_false (by rintro ⟨⟩) (by simp [h])
      | enclosed hmentions hglobal hnonlocal hbinds henclosed =>
        exact iff_of_true rfl (.inr ⟨hglobal,hbinds,henclosed⟩)
      | unbound hmentions hglobal hnonlocal hbinds henclosed =>
        refine iff_of_false (by rintro ⟨⟩) fun h => ?_
        exact h.elim (by rintro ⟨⟩) fun h => henclosed h.2.2.py

theorem allSafe_of_path {m : PyModule}
    (hsafe : ∀ block outer,Path m.body (block::outer)→Safe block outer) {path : List Block}
    (hpath : Path m.body path) : AllSafe path := by
  induction hpath with
  | module => exact ⟨m.accepted _ _ .module,hsafe _ _ .module,trivial⟩
  | inner houter huse ih =>
    exact ⟨m.accepted _ _ (houter.inner huse),hsafe _ _ (houter.inner huse),ih⟩

section Pass

variable {m : PyModule} {state : State}

variable {i : ℕ}

theorem Progress.entry_at (hprogress : Progress m.body state.scopes.length state)
    (hi : i < state.scopes.length) (x : String) (houter : AllSafe (state.outer i)) :
    ∃ e vis r,(vis=true↔PlainEnclosed x (state.outer i)) ∧
      EntryCase (state.block i) vis x r ∧ r=some e ∧
      Touched (state.ancestors i=[]) vis e (state.kindOf i x) := by
  obtain ⟨e,hentry,htouched⟩ := hprogress.table i hi x
  have hcase := entry_case (m.accepted _ _ (hprogress.linked.path i hi)) (state.sees i x) x
  exact ⟨e,state.sees i x,_,visible_iff houter x,hcase,hentry,htouched⟩

/-- The entry of a name in a filled table of a safe module. -/
theorem Progress.safe_at (hprogress : Progress m.body state.scopes.length state)
    (hsafe : ∀ block outer,Path m.body (block::outer)→Safe block outer)
    (hi : i < state.scopes.length) (x : String) :
    ∃ e vis,(vis=true↔PlainEnclosed x (state.outer i)) ∧
      SafeEntry (state.block i) (state.outer i) x e ∧
      Touched (state.ancestors i=[]) vis e (state.kindOf i x) := by
  have hpath := hprogress.linked.path i hi
  obtain ⟨haccepts,hblock,houter⟩ := allSafe_of_path hsafe hpath
  obtain ⟨e,hentry,htouched⟩ := hprogress.table i hi x
  have hvis : state.sees i x=true↔PlainEnclosed x (state.outer i) := visible_iff houter x
  obtain ⟨e',hentry',hcase⟩ := safe_entry haccepts hblock hvis
  rw [hentry] at hentry'
  cases hentry'
  exact ⟨e,state.sees i x,hvis,hcase,htouched⟩

/-- The module is the only scope without a parent. -/
theorem Linked.ancestors_nil {body : List Use} {done : ℕ} (hlinked : Linked body state done)
    (hi : i < state.scopes.length) (h : state.ancestors i=[]) : state.block i=⟨.module,body⟩ := by
  cases i with
  | zero => exact (State.at hlinked.root).1
  | succ i =>
    obtain ⟨p,_,_,hancestors,_⟩ := hlinked.parent i _ (List.getElem?_eq_getElem hi)
    rw [(State.at (List.getElem?_eq_getElem hi)).2,hancestors] at h
    cases h

section

variable (hprogress : Progress m.body state.scopes.length state)
  (hsafe : ∀ block outer,Path m.body (block::outer)→Safe block outer)
include hprogress hsafe

/-- A name that the scope around has as a variable is closed over. -/
theorem Progress.closedOver {x : String} (i : ℕ)
    (hi : i < state.scopes.length) (h : HasOuter state x (state.ancestors i)) :
    ClosedOver state x (state.ancestors i) := by
  induction i using Nat.strongRecOn with
  | ind i ih =>
    have hchain := hprogress.linked.chain i hi
    generalize hancestors : state.ancestors i=ancestors at h hchain
    rcases ancestors with _ | ⟨p,_ | ⟨q,rest⟩⟩
    · cases h
    · cases h
    obtain ⟨hp,hrest,_,_⟩ := hchain
    have hp' := Nat.lt_trans hp hi
    obtain ⟨e,vis,hvis,hcase,htouched⟩ := hprogress.safe_at hsafe hp' x
    have hlocal := hcase.local_iff (hsafe _ _ (hprogress.linked.path p hp'))
    have hcell := hcase.ne_cell
    rw [ClosedOver,← hlocal]
    cases h with
    | inr h =>
      rw [h] at htouched
      cases htouched with
      | same => exact absurd rfl hcell
      | cell => exact .inl ⟨rfl,h⟩
    | inl h =>
      rw [h] at htouched
      have hfurther := hprogress.free p hp' x h
      have hclosed := ih p hp hp' hfurther
      rw [hrest] at hclosed
      refine .inr ⟨?_,h,hclosed⟩
      cases htouched <;> nofun

/-- The tables of a safe module are right. -/
theorem Progress.classified {i : ℕ}
    (hi : i < state.scopes.length) {x : String} (hmentions : (state.block i).mentions x) :
    Classified state i x := by
  obtain ⟨e,vis,hvis,hcase,htouched⟩ := hprogress.safe_at hsafe hi x
  have hmodule : state.ancestors i=[]→(state.block i).kind=.module := fun h => by
    rw [hprogress.linked.ancestors_nil hi h]
  have hclosed : e=some .free→PlainEnclosed x (state.outer i)→
      state.kindOf i x=some .free ∧ ClosedOver state x (state.ancestors i) := by
    intro he henclosed
    have hfree : state.kindOf i x=some .free := by
      rw [he] at htouched
      generalize hactual : state.kindOf i x=actual at htouched
      cases htouched with
      | same => rfl
      | declared h =>
        rw [State.outer,h] at henclosed
        cases henclosed
    exact ⟨hfree,hprogress.closedOver hsafe i hi (hprogress.free i hi x hfree)⟩
  have himplicit : e=some .globalImplicit → state.kindOf i x=some .globalImplicit ∨
      ((state.block i).kind=.module ∧ state.kindOf i x=some .globalExplicit) := by
    intro he
    rw [he] at htouched
    generalize state.kindOf i x=actual at htouched
    cases htouched with
    | same => exact .inl rfl
    | declared h => exact .inr ⟨hmodule h,rfl⟩
  rw [Classified,pyScope]
  cases hcase with
  | absent h => exact absurd hmentions h
  | global _ h =>
    rw [if_pos h]
    generalize state.kindOf i x=actual at htouched
    cases htouched <;> rfl
  | nonlocal _ hglobal h henclosed =>
    rw [if_neg hglobal,if_pos h]
    exact hclosed rfl henclosed
  | own _ h =>
    rw [if_neg h.1,if_neg h.2.1,if_pos h]
    cases hfunc : (state.block i).kind.isFuncLike with
    | true =>
      rw [hfunc,if_pos rfl] at htouched
      generalize state.kindOf i x=actual at htouched
      cases htouched with
      | same => exact .inl rfl
      | cell => exact .inr rfl
      | declared h =>
        rw [hmodule h] at hfunc
        cases hfunc
    | false =>
      refine himplicit ?_
      rw [hfunc]
      rfl
  | enclosed _ hglobal hnonlocal hbinds henclosed =>
    rw [if_neg hglobal,if_neg hnonlocal,if_neg hbinds,if_pos henclosed.py]
    exact hclosed rfl henclosed
  | unbound _ hglobal hnonlocal hbinds henclosed =>
    rw [if_neg hglobal,if_neg hnonlocal,if_neg hbinds,if_neg henclosed]
    exact himplicit rfl

end

/-- A class body has no local of its own in Python. -/
theorem Classified.not_local {x : String} (h : Classified state i x)
    (hfunc : (state.block i).kind.isFuncLike=false) :
    state.kindOf i x≠some .local ∧ state.kindOf i x≠some .cell := by
  rw [Classified,pyScope,hfunc] at h
  generalize state.kindOf i x=actual at h
  split at h
  case h_1 heq =>
    split_ifs at heq
    simp_all
  case h_2 => rcases h with h | ⟨_,h⟩ <;> simp [h]
  case h_3 => simp [h.1]
  case h_4 => simp [h]
  case h_5 => rcases h with h | ⟨_,h⟩ <;> simp [h]

/-- The tables are not right where the first unsafe scope is. -/
theorem Progress.safe_of_classified (hprogress : Progress m.body state.scopes.length state)
    (hi : i < state.scopes.length) (houter : AllSafe (state.outer i))
    (hclassified : ∀ x,(state.block i).mentions x→Classified state i x) :
    Safe (state.block i) (state.outer i) := by
  have hcell : ∀ x,(state.block i).kind=.classDef → x="__class__"→
      (state.block i).mentions x→False := by
    intro x hkind hx hmentions
    have hfunc : (state.block i).kind.isFuncLike=false := by
      rw [hkind]
      rfl
    have hlocal := (hclassified x hmentions).not_local hfunc
    obtain ⟨e,hentry,htouched⟩ := hprogress.table i hi x
    rw [entry,initialEntry,if_pos ⟨hkind,hx⟩] at hentry
    have he := entryFrom_local (state.block i).kind (state.sees i x) x (state.block i).uses
    rw [hentry] at he
    cases he.resolve_left (by rintro ⟨⟩)
    generalize state.kindOf i x=actual at hlocal htouched
    cases htouched with
    | same => exact hlocal.1 rfl
    | cell => exact hlocal.2 rfl
    | declared h =>
      rw [hprogress.linked.ancestors_nil hi h] at hkind
      cases hkind
  refine ⟨fun x hkind hmentions hx => hcell x hkind hx hmentions,?_,?_⟩
  · intro x hbinds hloads henclosed
    have hc := hclassified x hbinds.mentions
    obtain ⟨e,vis,r,hvis,hcase,hr,htouched⟩ := hprogress.entry_at hi x houter
    rw [Classified,pyScope,if_neg hbinds.1,if_neg hbinds.2.1,if_pos hbinds] at hc
    cases hcase with
    | absent h => exact h hbinds.mentions
    | classCell hkind hx hmentions => exact hcell x hkind hx hmentions
    | global _ h => exact hbinds.1 h
    | nonlocal _ _ h => exact hbinds.2.1 h
    | own _ _ h => exact h ⟨hloads,hvis.mpr henclosed⟩
    | unbound _ _ _ h => exact h hbinds
    | early =>
      cases hr
      generalize state.kindOf i x=actual at hc htouched
      cases htouched with
      | same =>
        cases hfunc : (state.block i).kind.isFuncLike with
        | true =>
          rw [hfunc] at hc
          exact hc.elim (by rintro ⟨⟩) (by rintro ⟨⟩)
        | false =>
          rw [hfunc] at hc
          exact hc.elim (by rintro ⟨⟩) fun h => by cases h.2
      | declared h =>
        rw [State.outer,h] at henclosed
        exact henclosed
  · intro x hmentions hglobal hbinds henclosed
    have hc := hclassified x hmentions
    obtain ⟨e,vis,r,hvis,hcase,hr,htouched⟩ := hprogress.entry_at hi x houter
    have hfree : state.kindOf i x=some .free := by
      rw [Classified,pyScope,if_neg hglobal,if_neg hbinds,if_pos henclosed,ite_self] at hc
      exact hc.1
    rw [hfree] at htouched
    refine hvis.mp (Bool.not_eq_false vis▸fun hvis => ?_)
    rw [hvis] at hcase htouched
    cases hcase with
    | absent h => exact h hmentions
    | classCell hkind hx => exact hcell x hkind hx hmentions
    | global _ h => exact hglobal h
    | own _ h => exact hbinds h
    | early _ h => exact hbinds h
    | unbound =>
      cases hr
      cases htouched
    | nonlocal => cases hr

end Pass

/-- The scope pass classifies every name of an accepted module as Python does
exactly when the order and place of uses are harmless in every scope. -/
theorem classifies_iff_safe (m : PyModule) :
    Classifies m.body↔∀ block outer,Path m.body (block::outer)→Safe block outer := by
  have hprogress := scopePass_progress m.body
  constructor
  · rintro ⟨state,hpass,hcovers,hclassified⟩
    rw [hpass] at hprogress
    have hall : ∀ path,Path m.body path→AllSafe path := by
      intro path hpath
      -- induction from the module inwards: the scopes around are safe already
      have hone : ∀ block outer,Path m.body (block::outer)→AllSafe outer→
          AllSafe (block::outer) := by
        intro block outer hpath houter
        obtain ⟨i,hi,rfl,rfl⟩ := hcovers.complete block outer hpath
        exact ⟨m.accepted _ _ hpath,
          Progress.safe_of_classified hprogress hi houter (hclassified i hi),houter⟩
      induction hpath with
      | module => exact hone _ _ .module trivial
      | inner houter huse ih => exact hone _ _ (houter.inner huse) ih
    exact fun block outer hpath => (hall _ hpath).2.1
  · intro hsafe
    cases hpass : scopePass m.body with
    | ok state =>
      rw [hpass] at hprogress
      exact ⟨state,hpass,Linked.covers (Progress.linked hprogress),
        fun i hi x hmentions => Progress.classified hprogress hsafe hi hmentions⟩
    | error e =>
      rw [hpass] at hprogress
      obtain ⟨block,outer,x,hpath,hentry⟩ := hprogress
      obtain ⟨haccepts,hblock,houter⟩ := allSafe_of_path hsafe hpath
      obtain ⟨e,hsome,_⟩ := safe_entry haccepts hblock (visible_iff houter x)
      rw [hentry] at hsome
      cases hsome

/-- Python accepts a scope without parameters and declarations. -/
theorem PyAccepts.of_plain (h : ∀ x,Plain x block.uses) : PyAccepts block outer where
  param := fun before x after huses => absurd (by rw [huses]; simp) (h x).1
  funcParam := fun x hx => absurd hx (h x).1
  global := fun before x after huses => absurd (by rw [huses]; simp) (h x).2.1
  nonlocal := fun before x after huses => absurd (by rw [huses]; simp) (h x).2.2
  enclosed := fun x hx => absurd hx (h x).2.2

/-- A function that loads `x` before it stores it. -/
def earlyLoad : List Use := [.load "print",.load "x",.store "x"]

/-- A function around it that also binds `x`. -/
def aroundEarlyLoad : List Use := [.store "x",.scope .function earlyLoad,.store "g"]

/-- The module `def f(): x=1; def g(): print(x); x=2`. -/
def earlyLoadModule : PyModule where
  body := [.scope .function aroundEarlyLoad,.store "f"]
  accepted := by
    intro block outer hpath
    have hall : ∀ path,Path [.scope .function aroundEarlyLoad,.store "f"] path→
        path=[⟨.module,[.scope .function aroundEarlyLoad,.store "f"]⟩] ∨
        path=[⟨.function,aroundEarlyLoad⟩,⟨.module,[.scope .function aroundEarlyLoad,.store "f"]⟩] ∨
        path=[⟨.function,earlyLoad⟩,⟨.function,aroundEarlyLoad⟩,
          ⟨.module,[.scope .function aroundEarlyLoad,.store "f"]⟩] := by
      intro path hpath
      induction hpath with
      | module => exact .inl rfl
      | inner _ huse ih =>
        rcases ih with ih | ih | ih
        · cases ih
          simp at huse
          simp [huse,implicitUses]
        · cases ih
          simp [aroundEarlyLoad] at huse
          simp [huse,implicitUses]
        · cases ih
          simp [earlyLoad] at huse
    rcases hall _ hpath with h | h | h
    · cases h
      exact .of_plain fun x => by simp [Plain]
    · cases h
      exact .of_plain fun x => by simp [Plain,aroundEarlyLoad]
    · cases h
      exact .of_plain fun x => by simp [Plain,earlyLoad]

/-- The inner function closes over the variable of the outer one instead of
having its own. -/
theorem earlyLoad_misclassified : ¬Classifies earlyLoadModule.body := by
  rintro ⟨state,hpass,_,hclassified⟩
  have hlength : 2 < state.scopes.length := by
    cases hpass
    decide
  have hblock : state.block 2=⟨.function,earlyLoad⟩ := by
    cases hpass
    rfl
  have hkind : state.kindOf 2 "x"=some .free := by
    cases hpass
    rfl
  have hbinds : (Block.mk .function earlyLoad).bindsOwn "x" := by
    simp [Block.bindsOwn,Block.declaresGlobal,Block.declaresNonlocal,earlyLoad,Use.binds]
  have hc := hclassified 2 hlength "x" (by rw [hblock]; exact hbinds.mentions)
  rw [Classified,pyScope,hblock,if_neg hbinds.1,if_neg hbinds.2.1,if_pos hbinds,
    if_pos (by decide),hkind] at hc
  exact hc.elim nofun nofun

end MicroPython.ScopePass
