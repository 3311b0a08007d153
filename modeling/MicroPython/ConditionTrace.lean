import MicroPython.IfCond

/-!
# Operations that a condition executes

The code of a condition finds the truth value of the whole expression as long
as it does not come to a tuple or generator expression whose evaluation would
do something. Where it does, an operation of the source is missing from the
trace, which shows because every operation stands at a place of its own.
-/

namespace MicroPython.IfCond

open List CodeFragment ConditionCode

variable {V W X α β : Type} {R : Runtime V W X}

mutual
/-- The operations of an expression. -/
def ids : Expr→List ℕ
  | .token _ | .smallInt _ | .const _ _ => []
  | .op id args => idsAll args++[id]
  | .tuple items => idsAll items
  | .genExpr id iterable => ids iterable++[id]
  | .orTest e es | .andTest e es => ids e++idsAll es
  | .notTest e => ids e

/-- The operations of expressions. -/
def idsAll : List Expr→List ℕ
  | [] => []
  | e::es => ids e++idsAll es
end

mutual
/-- The operations for which `c_if_cond` makes code. -/
def condIds : Expr→List ℕ
  | .tuple _ | .genExpr _ _ => []
  | .orTest e es | .andTest e es => condIds e++condIdsAll es
  | .notTest e => condIds e
  | e => ids e

/-- The same for the further operands of `or` and `and`. -/
def condIdsAll : List Expr→List ℕ
  | [] => []
  | e::es => condIds e++condIdsAll es
end

mutual
/-- The operations in tuples and generator expressions that are conditions. -/
def skipIds : Expr→List ℕ
  | .tuple items => idsAll items
  | .genExpr id iterable => ids iterable++[id]
  | .orTest e es | .andTest e es => skipIds e++skipIdsAll es
  | .notTest e => skipIds e
  | _ => []

/-- The same for the further operands of `or` and `and`. -/
def skipIdsAll : List Expr→List ℕ
  | [] => []
  | e::es => skipIds e++skipIdsAll es
end

mutual
/-- Every operation is in one of the two parts. -/
theorem count_ids : ∀ (e : Expr) (i : ℕ),(condIds e).count i+(skipIds e).count i=(ids e).count i
  | .token _,_ | .smallInt _,_ | .const _ _,_ | .op _ _,_ => by simp [condIds,skipIds,ids]
  | .tuple _,_ | .genExpr _ _,_ => by simp [condIds,skipIds,ids]
  | .orTest e es,i => by
    have h₁ := count_ids e i
    have h₂ := count_idsAll es i
    simp only [condIds,skipIds,ids,count_append]
    omega
  | .andTest e es,i => by
    have h₁ := count_ids e i
    have h₂ := count_idsAll es i
    simp only [condIds,skipIds,ids,count_append]
    omega
  | .notTest e,i => by
    exact count_ids e i

/-- The same for the further operands of `or` and `and`. -/
theorem count_idsAll : ∀ (es : List Expr) (i : ℕ),
    (condIdsAll es).count i+(skipIdsAll es).count i=(idsAll es).count i
  | [],_ => rfl
  | e::es,i => by
    have h₁ := count_ids e i
    have h₂ := count_idsAll es i
    simp only [condIdsAll,skipIdsAll,idsAll,count_append]
    omega
end

/-- An evaluation only adds operations of the list to the trace. -/
def Extends (a : Act W X α) (S : List ℕ) : Prop :=
  ∀ o,∃ new,(a o).2.trace=o.trace++new ∧ ∀ i∈new,i∈S

/-- No evaluation adds nothing. -/
theorem Extends.pure (x : α) (S : List ℕ) : Extends (Act.pure x : Act W X α) S :=
  fun _ => ⟨[],(append_nil _).symm,nofun⟩

variable {S : List ℕ}

/-- An operation adds itself. -/
theorem Extends.traced {id : ℕ} (h : id∈S) (a : W→Except X α×W) : Extends (Act.traced id a) S :=
  fun _ => ⟨[id],rfl,fun i hi => by rw [mem_singleton.mp hi]; exact h⟩

/-- A truth test adds nothing. -/
theorem Extends.isTrue (v : Obj V) (S : List ℕ) : Extends (isTrue R v) S := by
  cases v with
  | other v => exact fun _ => ⟨[],(append_nil _).symm,nofun⟩
  | bool | smallInt | const | tuple | generator => exact .pure _ S

variable {a : Act W X α} {f : α→Act W X β}

/-- Two evaluations in a row. -/
theorem Extends.bind (ha : Extends a S) (hf : ∀ x,Extends (f x) S) : Extends (a.bind f) S := by
  intro o
  obtain ⟨new,hnew,hS⟩ := ha o
  rw [Act.bind]
  generalize a o=r at hnew
  rcases r with ⟨_ | x,o'⟩
  · exact ⟨new,hnew,hS⟩
  · obtain ⟨new',hnew',hS'⟩ := hf x o'
    refine ⟨new++new',?_,fun i hi => (mem_append.mp hi).elim (hS i) (hS' i)⟩
    rw [hnew',hnew,append_assoc]

/-- More operations may be named. -/
theorem Extends.mono {T : List ℕ} (ha : Extends a S) (h : ∀ i∈S,i∈T) : Extends a T := by
  intro o
  obtain ⟨new,hnew,hS⟩ := ha o
  exact ⟨new,hnew,fun i hi => h i (hS i hi)⟩

mutual
/-- The value of an expression takes only its operations. -/
theorem eval_extends : ∀ e : Expr,Extends (eval R e) (ids e)
  | .token _ | .smallInt _ | .const _ _ => .pure _ _
  | .op id args => by
    rw [eval,ids]
    exact ((evalAll_extends args).mono fun i hi => mem_append_left _ hi).bind
      fun vs => .traced (by simp) _
  | .tuple items => by
    rw [eval,ids]
    exact (evalAll_extends items).bind fun vs => .pure _ _
  | .genExpr id iterable => by
    rw [eval,ids]
    exact ((eval_extends iterable).mono fun i hi => mem_append_left _ hi).bind
      fun v => (Extends.traced (by simp) _).bind fun g => .pure _ _
  | .orTest e es => by
    rw [eval,ids]
    exact ((eval_extends e).mono fun i hi => mem_append_left _ hi).bind
      fun v => (evalRest_extends true es v).mono fun i hi => mem_append_right _ hi
  | .andTest e es => by
    rw [eval,ids]
    exact ((eval_extends e).mono fun i hi => mem_append_left _ hi).bind
      fun v => (evalRest_extends false es v).mono fun i hi => mem_append_right _ hi
  | .notTest e => by
    rw [eval,ids]
    exact (eval_extends e).bind fun v => (Extends.isTrue v _).bind fun b => .pure _ _

/-- So do the values of expressions in a row. -/
theorem evalAll_extends : ∀ es : List Expr,Extends (evalAll R es) (idsAll es)
  | [] => .pure _ _
  | e::es => by
    rw [evalAll,idsAll]
    exact ((eval_extends e).mono fun i hi => mem_append_left _ hi).bind fun v =>
      ((evalAll_extends es).mono fun i hi => mem_append_right _ hi).bind fun vs => .pure _ _

/-- So do the further operands of `or` and `and`. -/
theorem evalRest_extends (stop : Bool) : ∀ (es : List Expr) (v : Obj V),
    Extends (evalRest R stop es v) (idsAll es)
  | [],v => .pure _ _
  | e::es,v => by
    rw [evalRest,idsAll]
    refine (Extends.isTrue v _).bind fun b => ?_
    split
    · exact .pure _ _
    · exact ((eval_extends e).mono fun i hi => mem_append_left _ hi).bind
        fun v => (evalRest_extends stop es v).mono fun i hi => mem_append_right _ hi
end

theorem tested_extends (e : Expr) : Extends (tested R e) (ids e) :=
  (eval_extends e).bind fun v => .isTrue v _

mutual
/-- The code of a condition executes only the operations that it has. -/
theorem truth_extends : ∀ e : Expr,Extends (truth R e) (condIds e)
  | .token _ | .smallInt _ | .const _ _ | .op _ _ => tested_extends _
  | .tuple _ | .genExpr _ _ => .pure _ _
  | .orTest e es => by
    rw [truth,condIds]
    exact ((truth_extends e).mono fun i hi => mem_append_left _ hi).bind
      fun b => (truthRest_extends true es b).mono fun i hi => mem_append_right _ hi
  | .andTest e es => by
    rw [truth,condIds]
    exact ((truth_extends e).mono fun i hi => mem_append_left _ hi).bind
      fun b => (truthRest_extends false es b).mono fun i hi => mem_append_right _ hi
  | .notTest e => by
    rw [truth,condIds]
    exact (truth_extends e).bind fun b => .pure _ _

/-- So does the code of the further operands of `or` and `and`. -/
theorem truthRest_extends (stop : Bool) : ∀ (es : List Expr) (b : Bool),
    Extends (truthRest R stop es b) (condIdsAll es)
  | [],b => by
    rw [truthRest]
    exact .pure _ _
  | e::es,b => by
    rw [truthRest,condIdsAll]
    split
    · exact .pure _ _
    · exact ((truth_extends e).mono fun i hi => mem_append_left _ hi).bind
        fun b => (truthRest_extends stop es b).mono fun i hi => mem_append_right _ hi
end

theorem Act.bind_assoc {γ : Type} (a : Act W X α) (f : α→Act W X β) (g : β→Act W X γ) :
    (a.bind f).bind g=a.bind fun x => (f x).bind g := by
  funext o
  rw [Act.bind,Act.bind,Act.bind]
  rcases a o with ⟨_ | _,_⟩ <;> rfl

/-- A truth value that needs no evaluation. -/
def Static (R : Runtime V W X) (v : Obj V) : Prop := ∃ b,isTrue R v=Act.pure b

/-- An evaluation that adds nothing to the trace does nothing at all. -/
def Quiet (a : Act W X α) (Q : α→Prop) : Prop :=
  ∀ o,(a o).2.trace=o.trace→∃ x,a o=(.ok x,o) ∧ Q x

/-- No evaluation does nothing. -/
theorem Quiet.pure {x : α} {Q : α→Prop} (h : Q x) : Quiet (Act.pure x : Act W X α) Q :=
  fun _ _ => ⟨x,rfl,h⟩

/-- An operation adds to the trace. -/
theorem Quiet.traced (id : ℕ) (a : W→Except X α×W) (Q : α→Prop) : Quiet (Act.traced id a) Q := by
  intro o h
  have hlength := congrArg List.length h
  rw [Act.traced,length_append,length_singleton] at hlength
  omega

/-- Two evaluations in a row. -/
theorem Quiet.bind {Q : α→Prop} {Q' : β→Prop} {T : List ℕ}
    (ha : Quiet a Q) (hS : Extends a S) (hT : ∀ x,Extends (f x) T)
    (hf : ∀ x,Q x→Quiet (f x) Q') : Quiet (a.bind f) Q' := by
  intro o h
  obtain ⟨new,hnew,_⟩ := hS o
  cases hao : a o with
  | mk r o' =>
    rw [hao] at hnew
    rcases r with e | x
    · rw [Act.bind_error hao] at h
      obtain ⟨x,hx,_⟩ := ha o (by rw [hao]; exact h)
      rw [hao] at hx
      cases hx
    · rw [Act.bind_ok hao] at h ⊢
      obtain ⟨new',hnew',_⟩ := hT x o'
      -- neither of the two may add anything
      have hlength : o.trace.length=o'.trace.length+new'.length := by
        rw [← h,hnew',length_append]
      have htrace : o'.trace=o.trace := by
        rw [hnew,length_append] at hlength
        have hnil : new=[] := eq_nil_of_length_eq_zero (by omega)
        rw [hnew,hnil,append_nil]
      obtain ⟨x',hx',hQ⟩ := ha o (by rw [hao]; exact htrace)
      rw [hao] at hx'
      cases hx'
      exact hf x hQ o h

variable {v : Obj V}

theorem Static.quiet (h : Static R v) : Quiet (isTrue R v) fun _ => True := by
  obtain ⟨b,hb⟩ := h
  rw [hb]
  exact .pure trivial

mutual
/-- An expression without operations has a static value. -/
theorem eval_quiet : ∀ e : Expr,Quiet (eval R e) (Static R)
  | .token b => .pure ⟨b,rfl⟩
  | .smallInt n => .pure ⟨decide (n≠0),rfl⟩
  | .const id truth => .pure ⟨truth,rfl⟩
  | .op id args => by
    rw [eval]
    exact (evalAll_quiet args).bind (evalAll_extends args)
      (fun vs => Extends.traced (mem_singleton_self id) _) fun vs _ => .traced id _ _
  | .tuple items => by
    rw [eval]
    exact (evalAll_quiet items).bind (evalAll_extends items) (fun vs => .pure _ [])
      fun vs _ => .pure ⟨!vs.isEmpty,rfl⟩
  | .genExpr id iterable => by
    rw [eval]
    refine (eval_quiet iterable).bind (eval_extends iterable)
      (fun v => (Extends.traced (mem_singleton_self id) _).bind fun g => .pure _ _) fun v _ => ?_
    exact (Quiet.traced id _ (fun _ => True)).bind (Extends.traced (mem_singleton_self id) _)
      (fun g => .pure _ []) fun g _ => .pure ⟨true,rfl⟩
  | .orTest e es => by
    rw [eval]
    exact (eval_quiet e).bind (eval_extends e) (evalRest_extends true es)
      fun v hv => evalRest_quiet true es v hv
  | .andTest e es => by
    rw [eval]
    exact (eval_quiet e).bind (eval_extends e) (evalRest_extends false es)
      fun v hv => evalRest_quiet false es v hv
  | .notTest e => by
    rw [eval]
    refine (eval_quiet e).bind (eval_extends e)
      (fun v => (Extends.isTrue v []).bind fun b => .pure _ _) fun v hv => ?_
    exact hv.quiet.bind (Extends.isTrue v []) (fun b => .pure _ []) fun b _ => .pure ⟨!b,rfl⟩

/-- So do expressions in a row. -/
theorem evalAll_quiet : ∀ es : List Expr,Quiet (evalAll R es) fun _ => True
  | [] => .pure trivial
  | e::es => by
    rw [evalAll]
    refine (eval_quiet e).bind (eval_extends e)
      (fun v => (evalAll_extends es).bind fun vs => .pure _ _) fun v _ => ?_
    exact (evalAll_quiet es).bind (evalAll_extends es) (fun vs => .pure _ []) fun vs _ =>
      .pure trivial

/-- So do the further operands of `or` and `and`. -/
theorem evalRest_quiet (stop : Bool) : ∀ (es : List Expr) (v : Obj V),Static R v→
    Quiet (evalRest R stop es v) (Static R)
  | [],v,hv => .pure hv
  | e::es,v,hv => by
    have hextends : ∀ b,Extends (if b=stop then .pure v else
        (eval R e).bind (evalRest R stop es)) (ids e++idsAll es) := by
      intro b
      split
      · exact .pure _ _
      · exact ((eval_extends e).mono fun i hi => mem_append_left _ hi).bind
          fun v => (evalRest_extends stop es v).mono fun i hi => mem_append_right _ hi
    rw [evalRest]
    refine hv.quiet.bind (Extends.isTrue v []) hextends fun b _ => ?_
    split
    · exact .pure hv
    · exact (eval_quiet e).bind (eval_extends e) (evalRest_extends stop es)
        fun v hv => evalRest_quiet stop es v hv
end

section Kept

variable (R)

mutual
/-- The condition drops no evaluation: no tuple with items and no generator
expression that the evaluation of the condition comes to, in a place where
`c_if_cond` looks for a truth value, contains an operation to execute. -/
def Kept : Expr→Obs W→Prop
  | .tuple items,o => items.isEmpty=false→(evalAll R items o).2.trace=o.trace
  | .genExpr id iterable,o => (eval R (.genExpr id iterable) o).2.trace=o.trace
  | .orTest e es,o => Kept e o ∧ ∀ o',tested R e o=(.ok false,o')→KeptRest true es o'
  | .andTest e es,o => Kept e o ∧ ∀ o',tested R e o=(.ok true,o')→KeptRest false es o'
  | .notTest e,o => Kept e o
  | _,_ => True

/-- The same for the further operands of `or` and `and`, where the one before
does not decide. -/
def KeptRest (stop : Bool) : List Expr→Obs W→Prop
  | [],_ => True
  | e::es,o => Kept e o ∧ ∀ o',tested R e o=(.ok (!stop),o')→KeptRest stop es o'
end

end Kept

variable {o : Obs W}

/-- A second test of a value repeats the first one. -/
theorem isTrue_again {b : Bool} {o' : Obs W} (h : isTrue R v o=(.ok b,o')) :
    isTrue R v o'=(.ok b,o') := by
  cases v with
  | bool | smallInt | const | tuple | generator =>
    cases h
    rfl
  | other v =>
    rw [ConditionCode.isTrue,Act.silent,Prod.mk.injEq] at h ⊢
    obtain ⟨hresult,rfl⟩ := h
    have hagain := R.test_again v o.world b _ (Prod.ext hresult rfl)
    rw [hagain]
    exact ⟨rfl,rfl⟩

variable {stop : Bool}

/-- After a test that does not decide. -/
theorem evalRest_go {o' : Obs W} (h : isTrue R v o=(.ok (!stop),o')) (e : Expr) (es : List Expr) :
    evalRest R stop (e::es) v o=(eval R e).bind (evalRest R stop es) o' := by
  rw [evalRest,Act.bind_ok h,if_neg (by cases stop <;> decide)]

/-- What follows sees the first evaluation at one state only. -/
theorem Act.bind_congr {a' : Act W X α} {f' : α→Act W X β} (ha : a o=a' o)
    (hf : ∀ x o',a' o=(.ok x,o') → f x o'=f' x o') : a.bind f o=a'.bind f' o := by
  rw [Act.bind,Act.bind,ha]
  generalize a' o=r at hf
  rcases r with ⟨_ | x,o'⟩
  · rfl
  · exact hf x o' rfl

/-- The first operand of `or` and `and` and those after it. -/
theorem first_eq {e : Expr} {es : List Expr} (he : truth R e o=tested R e o)
    (hes : ∀ v o',eval R e o=(.ok v,o')→((evalRest R stop es v).bind (isTrue R)) o'=
      ((isTrue R v).bind (truthRest R stop es)) o') :
    ((truth R e).bind (truthRest R stop es)) o=
      (((eval R e).bind (evalRest R stop es)).bind (isTrue R)) o := by
  rw [Act.bind_congr he fun _ _ _ => rfl,tested,Act.bind_assoc,Act.bind_assoc]
  exact Act.bind_congr rfl fun v o' h => (hes v o' h).symm

mutual
/-- Where nothing is dropped, the code of a condition finds the truth value as
evaluation and test do. -/
theorem truth_eq_tested : ∀ (e : Expr) (o : Obs W),Kept R e o → truth R e o=tested R e o
  | .token _,_,_ | .smallInt _,_,_ | .const _ _,_,_ | .op _ _,_,_ => rfl
  | .tuple [],o,_ => rfl
  | .tuple (e::es),o,h => by
    obtain ⟨vs,hvs,_⟩ := evalAll_quiet (e::es) o (h rfl)
    have hlength := evalAll_length (e::es) o vs o hvs
    have heval : eval R (.tuple (e::es)) o=(.ok (.tuple vs),o) := by
      rw [eval,Act.bind_ok hvs]
      rfl
    rw [tested,Act.bind_ok heval]
    cases vs with
    | nil => cases hlength
    | cons v vs => rfl
  | .genExpr id iterable,o,h => by
    obtain ⟨v,hv,_⟩ := eval_quiet (.genExpr id iterable) o h
    rw [tested,Act.bind_ok hv]
    rw [eval] at hv
    obtain ⟨_,_,_,hv⟩ := Act.of_bind_ok hv
    obtain ⟨g,_,_,hv⟩ := Act.of_bind_ok hv
    cases hv
    rfl
  | .orTest e es,o,h => by
    rw [truth,tested,eval]
    exact first_eq (truth_eq_tested e o h.1) fun v o' hv =>
      rest_eq true es v o' fun o'' hb => h.2 o'' (by rw [tested,Act.bind_ok hv,hb]; rfl)
  | .andTest e es,o,h => by
    rw [truth,tested,eval]
    exact first_eq (truth_eq_tested e o h.1) fun v o' hv =>
      rest_eq false es v o' fun o'' hb => h.2 o'' (by rw [tested,Act.bind_ok hv,hb]; rfl)
  | .notTest e,o,h => by
    rw [truth,Act.bind_congr (truth_eq_tested e o h) fun _ _ _ => rfl,tested,tested,eval,
      Act.bind_assoc,Act.bind_assoc]
    refine Act.bind_congr rfl fun v o' _ => ?_
    rw [Act.bind_assoc]
    rfl

/-- The same for the further operands of `or` and `and`. -/
theorem rest_eq (stop : Bool) : ∀ (es : List Expr) (v : Obj V) (o : Obs W),
    (∀ o',isTrue R v o=(.ok (!stop),o')→KeptRest R stop es o')→
    ((evalRest R stop es v).bind (isTrue R)) o=((isTrue R v).bind (truthRest R stop es)) o
  | [],v,o,_ => by
    have hpure : truthRest R stop []=(Act.pure : Bool→Act W X Bool) := by
      funext b
      rw [truthRest]
    rw [hpure,Act.bind_pure]
    rfl
  | e::es,v,o,h => by
    rw [evalRest,Act.bind_assoc]
    refine Act.bind_congr rfl fun b o' hb => ?_
    rw [truthRest]
    split
    · rw [Act.bind,Act.pure]
      exact isTrue_again hb
    case isFalse hstop =>
      obtain rfl : b=(!stop) := by
        cases b <;> cases stop <;> first | rfl | exact absurd rfl hstop
      have hkept := h o' hb
      exact (first_eq (truth_eq_tested e o' hkept.1) fun v o'' hv =>
        rest_eq stop es v o'' fun o₃ hb => hkept.2 o₃ (by rw [tested,Act.bind_ok hv,hb])).symm
end

/-- What has been executed stays in the trace. -/
theorem trace_bind (hf : ∀ x,Extends (f x) S)
    {i : ℕ} (h : i∈(a o).2.trace) : i∈(a.bind f o).2.trace := by
  rw [Act.bind]
  generalize a o=r at h
  rcases r with ⟨_ | x,o'⟩
  · exact h
  · obtain ⟨new,hnew,_⟩ := hf x o'
    rw [hnew]
    exact mem_append_left new h

/-- A test leaves the trace as it is. -/
theorem trace_isTrue (v : Obj V) (o : Obs W) : (isTrue R v o).2.trace=o.trace := by
  cases v <;> rfl

theorem trace_tested (e : Expr) (o : Obs W) : (tested R e o).2.trace=(eval R e o).2.trace := by
  rw [tested,Act.bind]
  rcases eval R e o with ⟨_ | v,o'⟩
  · rfl
  · exact trace_isTrue v o'

theorem Extends.added (ha : Extends a S) (h : (a o).2.trace≠o.trace) : ∃ i∈S,i∈(a o).2.trace := by
  obtain ⟨new,hnew,hS⟩ := ha o
  cases new with
  | nil =>
    rw [append_nil] at hnew
    exact absurd hnew h
  | cons i new =>
    refine ⟨i,hS i mem_cons_self,?_⟩
    rw [hnew]
    exact mem_append_right _ mem_cons_self

/-- The first operand of `or` and `and` executes a dropped operation, or one
after it does. -/
theorem first_dropped {e : Expr} {es : List Expr}
    (he : ¬Kept R e o→∃ i∈skipIds e,i∈(tested R e o).2.trace)
    (hes : ∀ v o' o'',isTrue R v o'=(.ok (!stop),o'')→¬KeptRest R stop es o''→
      ∃ i∈skipIdsAll es,i∈(((evalRest R stop es v).bind (isTrue R)) o').2.trace)
    (h : ¬(Kept R e o ∧ ∀ o',tested R e o=(.ok (!stop),o')→KeptRest R stop es o')) :
    ∃ i∈skipIds e++skipIdsAll es,
      i∈((((eval R e).bind (evalRest R stop es)).bind (isTrue R)) o).2.trace := by
  rw [Act.bind_assoc]
  cases Classical.em (Kept R e o) with
  | inr hkept =>
    obtain ⟨i,hi,hmem⟩ := he hkept
    rw [trace_tested] at hmem
    exact ⟨i,mem_append_left _ hi,trace_bind (fun v =>
      (evalRest_extends stop es v).bind fun v => .isTrue v _) hmem⟩
  | inl hkept =>
    have hrest : ∃ o',tested R e o=(.ok (!stop),o') ∧ ¬KeptRest R stop es o' := by
      refine Classical.byContradiction fun hno => h ⟨hkept,fun o' ho' => ?_⟩
      exact Classical.byContradiction fun hrest => hno ⟨o',ho',hrest⟩
    obtain ⟨o'',htested,hrest⟩ := hrest
    rw [tested] at htested
    obtain ⟨v,o',hv,hb⟩ := Act.of_bind_ok htested
    obtain ⟨i,hi,hmem⟩ := hes v o' o'' hb hrest
    refine ⟨i,mem_append_right _ hi,?_⟩
    rw [Act.bind_ok hv]
    exact hmem

mutual
/-- Where an evaluation is dropped, evaluation and test execute an operation
that the code does not have. -/
theorem dropped_traced : ∀ (e : Expr) (o : Obs W),¬Kept R e o→
    ∃ i∈skipIds e,i∈(tested R e o).2.trace
  | .token _,_,h | .smallInt _,_,h | .const _ _,_,h | .op _ _,_,h => absurd trivial h
  | .tuple items,o,h => by
    rw [Kept,Classical.not_imp] at h
    obtain ⟨i,hi,hmem⟩ := (evalAll_extends items).added h.2
    refine ⟨i,hi,?_⟩
    rw [trace_tested,eval]
    exact trace_bind (fun vs => Extends.pure _ []) hmem
  | .genExpr id iterable,o,h => by
    obtain ⟨i,hi,hmem⟩ := (eval_extends (.genExpr id iterable)).added h
    refine ⟨i,?_,?_⟩
    · rw [ids] at hi
      exact hi
    · rw [trace_tested]
      exact hmem
  | .orTest e es,o,h => by
    rw [tested,eval,skipIds]
    exact first_dropped (dropped_traced e o) (rest_dropped true es) h
  | .andTest e es,o,h => by
    rw [tested,eval,skipIds]
    exact first_dropped (dropped_traced e o) (rest_dropped false es) h
  | .notTest e,o,h => by
    obtain ⟨i,hi,hmem⟩ := dropped_traced e o h
    refine ⟨i,hi,?_⟩
    rw [trace_tested] at hmem ⊢
    rw [eval]
    exact trace_bind (fun v => (Extends.isTrue v []).bind fun b => .pure _ _) hmem

/-- The same for the further operands of `or` and `and`. -/
theorem rest_dropped (stop : Bool) : ∀ (es : List Expr) (v : Obj V) (o o' : Obs W),
    isTrue R v o=(.ok (!stop),o')→¬KeptRest R stop es o'→
    ∃ i∈skipIdsAll es,i∈(((evalRest R stop es v).bind (isTrue R)) o).2.trace
  | [],_,_,_,_,h => absurd trivial h
  | e::es,v,o,o',hb,h => by
    have hgo : ((evalRest R stop (e::es) v).bind (isTrue R)) o=
        (((eval R e).bind (evalRest R stop es)).bind (isTrue R)) o' := by
      rw [Act.bind,evalRest_go hb]
      rfl
    rw [hgo,skipIdsAll]
    exact first_dropped (dropped_traced e o') (rest_dropped stop es) h
end

/-- A condition of the source, whose operations stand at different places. -/
structure Condition where
  expr : Expr
  /-- No operation occurs twice. -/
  nodup : (ids expr).Nodup

/-- The code and the evaluation of a condition execute the same operations only
where nothing is dropped. -/
theorem kept_of_trace_eq (c : Condition) {w : W}
    (h : (truth R c.expr ⟨w,[]⟩).2.trace=(tested R c.expr ⟨w,[]⟩).2.trace) :
    Kept R c.expr ⟨w,[]⟩ := by
  refine Classical.byContradiction fun hkept => ?_
  obtain ⟨i,hskip,hmem⟩ := dropped_traced c.expr ⟨w,[]⟩ hkept
  rw [← h] at hmem
  obtain ⟨new,hnew,hcond⟩ := @truth_extends _ _ _ R c.expr ⟨w,[]⟩
  rw [hnew] at hmem
  have hcount := count_ids c.expr i
  have h₁ := count_pos_iff.mpr (hcond i hmem)
  have h₂ := count_pos_iff.mpr hskip
  have h₃ := nodup_iff_count.mp c.nodup i
  omega

end MicroPython.IfCond
