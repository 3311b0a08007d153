import MicroPython.ConditionTrace

/-!
# Faithful code of conditions

The code of a condition marks each of its labels once, so that it has a place
in a program, and there it is the evaluation and test of the expression exactly
when no evaluation is dropped.
-/

namespace MicroPython.IfCond

open List CodeFragment ConditionCode

variable {V W X α β : Type} {R : Runtime V W X}

/-- The labels that code from the label `l` on marks. -/
abbrev marked (code : List Instr) : List ℕ := code.filterMap Instr.marks

/-- Code marks each label at most once, and only those that it has taken. -/
structure Fresh (c : List Instr×ℕ) (l : ℕ) : Prop where
  /-- Labels are taken in order. -/
  le : l≤c.2
  /-- No label is marked twice. -/
  nodup : (marked c.1).Nodup
  taken : ∀ k∈marked c.1,l≤k ∧ k < c.2

/-- Code without labels. -/
theorem Fresh.plain {code : List Instr} (h : marked code=[]) (l : ℕ) : Fresh (code,l) l where
  le := Nat.le_refl l
  nodup := by
    rw [h]
    exact .nil
  taken := by
    rw [h]
    exact nofun

/-- Two pieces of code in a row. -/
theorem Fresh.append {c d : List Instr×ℕ} {l : ℕ} (hc : Fresh c l) (hd : Fresh d c.2) :
    Fresh (c.1++d.1,d.2) l where
  le := Nat.le_trans hc.le hd.le
  nodup := by
    rw [marked,filterMap_append,nodup_append]
    refine ⟨hc.nodup,hd.nodup,fun a ha b hb => ?_⟩
    have h₁ := hc.taken a ha
    have h₂ := hd.taken b hb
    omega
  taken := by
    intro k hk
    rw [marked,filterMap_append] at hk
    cases mem_append.mp hk with
    | inl h =>
      have h₁ := hc.taken k h
      have h₂ := hd.le
      omega
    | inr h =>
      have h₁ := hd.taken k h
      have h₂ := hc.le
      dsimp only
      omega

/-- Code between instructions that mark nothing. -/
theorem Fresh.around {c : List Instr×ℕ} {l : ℕ} (hc : Fresh c l) (before after : List Instr)
    (hbefore : marked before=[]) (hafter : marked after=[]) :
    Fresh (before++c.1++after,c.2) l := by
  have h : marked (before++c.1++after)=marked c.1 := by
    rw [marked,filterMap_append,filterMap_append]
    exact (congrArg₂ (· ++ marked c.1++·) hbefore hafter).trans (append_nil _)
  refine ⟨hc.le,?_,?_⟩
  · rw [h]
    exact hc.nodup
  · rw [h]
    exact hc.taken

/-- Code and a label that was taken before it. -/
theorem Fresh.label {c : List Instr×ℕ} {l : ℕ} (hc : Fresh c (l+1)) :
    Fresh (c.1++[.label l],c.2) l where
  le := Nat.le_of_succ_le hc.le
  nodup := by
    rw [marked,filterMap_append,nodup_append]
    refine ⟨hc.nodup,pairwise_singleton _ l,fun a ha b hb => ?_⟩
    have h₁ := hc.taken a ha
    obtain rfl : b=l := mem_singleton.mp hb
    omega
  taken := by
    intro k hk
    rw [marked,filterMap_append] at hk
    cases mem_append.mp hk with
    | inl h =>
      have h₁ := hc.taken k h
      omega
    | inr h =>
      obtain rfl : k=l := mem_singleton.mp h
      have h₂ := hc.le
      dsimp only
      omega

mutual
theorem compileNode_fresh : ∀ (e : Expr) (l : ℕ),Fresh (compileNode e l) l
  | .token _,l | .smallInt _,l | .const _ _,l => .plain rfl l
  | .op _ args,l => (compileNodes_fresh args l).around [] _ rfl rfl
  | .tuple items,l => (compileNodes_fresh items l).around [] _ rfl rfl
  | .genExpr _ iterable,l => (compileNode_fresh iterable l).around [] _ rfl rfl
  | .orTest e es,l =>
    ((compileNode_fresh e (l+1)).append (compileOrAndRest_fresh es true l _)).label
  | .andTest e es,l =>
    ((compileNode_fresh e (l+1)).append (compileOrAndRest_fresh es false l _)).label
  | .notTest e,l => (compileNode_fresh e l).around [] _ rfl rfl

theorem compileNodes_fresh : ∀ (es : List Expr) (l : ℕ),Fresh (compileNodes es l) l
  | [],l => .plain rfl l
  | e::es,l => (compileNode_fresh e l).append (compileNodes_fresh es _)

/-- The labels of the code of further operands. -/
theorem compileOrAndRest_fresh : ∀ (es : List Expr) (cond : Bool) (lEnd l : ℕ),
    Fresh (compileOrAndRest es cond lEnd l) l
  | [],_,_,l => .plain rfl l
  | e::es,cond,lEnd,l => by
    have h := ((compileNode_fresh e l).append (compileOrAndRest_fresh es cond lEnd _)).around
      [.jumpIfOrPop cond lEnd] [] rfl rfl
    rw [append_nil] at h
    exact h
end

theorem jump_fresh {p : Prop} [Decidable p] (label l : ℕ) :
    Fresh (if p then [.jump label] else [],l) l := by
  split
  · exact .plain rfl l
  · exact .plain rfl l

/-- The labels of an operand of `and_or_logic1`. -/
theorem operand_fresh {e : Expr}
    (he : ∀ (jumpIf : Bool) (label l : ℕ),Fresh (cIfCond e jumpIf label l) l) (es : List Expr)
    (jumpIf : Bool) (label label2 l : ℕ) :
    Fresh (if es.isEmpty then cIfCond e jumpIf label l else cIfCond e (!jumpIf) label2 l) l := by
  split
  · exact he jumpIf label l
  · exact he (!jumpIf) label2 l

/-- The labels of all of `and_or_logic1`. -/
theorem logic1_fresh {e : Expr} {es : List Expr}
    (he : ∀ (jumpIf : Bool) (label l : ℕ),Fresh (cIfCond e jumpIf label l) l)
    (hes : ∀ (jumpIf : Bool) (label label2 l : ℕ),Fresh (cIfCondLogic1 es jumpIf label label2 l) l)
    (jumpIf : Bool) (label l : ℕ) :
    Fresh ((if es.isEmpty then cIfCond e jumpIf label (l+1)
        else cIfCond e (!jumpIf) l (l+1)).1++
      (cIfCondLogic1 es jumpIf label l (if es.isEmpty then cIfCond e jumpIf label (l+1)
        else cIfCond e (!jumpIf) l (l+1)).2).1++[.label l],
      (cIfCondLogic1 es jumpIf label l (if es.isEmpty then cIfCond e jumpIf label (l+1)
        else cIfCond e (!jumpIf) l (l+1)).2).2) l :=
  ((operand_fresh he es jumpIf label l (l+1)).append (hes jumpIf label l _)).label

mutual
/-- The labels of the code of a condition. -/
theorem cIfCond_fresh : ∀ (e : Expr) (jumpIf : Bool) (label l : ℕ),
    Fresh (cIfCond e jumpIf label l) l
  | .token false,jumpIf,label,l => jump_fresh label l
  | .token true,jumpIf,label,l => jump_fresh label l
  | .smallInt n,jumpIf,label,l => by
    unfold cIfCond
    split
    · exact jump_fresh label l
    · split
      · exact jump_fresh label l
      · exact (compileNode_fresh (.smallInt n) l).around [] _ rfl rfl
  | .const id truth,jumpIf,label,l =>
    (compileNode_fresh (.const id truth) l).around [] _ rfl rfl
  | .op id args,jumpIf,label,l => (compileNode_fresh (.op id args) l).around [] _ rfl rfl
  | .tuple items,jumpIf,label,l => by
    rw [cIfCond]
    split
    · exact jump_fresh label l
    · exact jump_fresh label l
  | .genExpr id iterable,jumpIf,label,l => jump_fresh label l
  | .orTest e es,false,label,l => logic1_fresh (cIfCond_fresh e) (cIfCondLogic1_fresh es) false label l
  | .orTest e es,true,label,l =>
    (cIfCond_fresh e true label l).append (cIfCondLogic2_fresh es true label _)
  | .andTest e es,false,label,l =>
    (cIfCond_fresh e false label l).append (cIfCondLogic2_fresh es false label _)
  | .andTest e es,true,label,l => logic1_fresh (cIfCond_fresh e) (cIfCondLogic1_fresh es) true label l
  | .notTest e,jumpIf,label,l => cIfCond_fresh e (!jumpIf) label l

/-- The labels of the code of further operands of `and_or_logic1`. -/
theorem cIfCondLogic1_fresh : ∀ (es : List Expr) (jumpIf : Bool) (label label2 l : ℕ),
    Fresh (cIfCondLogic1 es jumpIf label label2 l) l
  | [],_,_,_,l => .plain rfl l
  | e::es,jumpIf,label,label2,l => by
    rw [cIfCondLogic1]
    exact (operand_fresh (cIfCond_fresh e) es jumpIf label label2 l).append
      (cIfCondLogic1_fresh es jumpIf label label2 _)

/-- The labels of the code of further operands of `and_or_logic2`. -/
theorem cIfCondLogic2_fresh : ∀ (es : List Expr) (jumpIf : Bool) (label l : ℕ),
    Fresh (cIfCondLogic2 es jumpIf label l) l
  | [],_,_,l => .plain rfl l
  | e::es,jumpIf,label,l =>
    (cIfCond_fresh e jumpIf label l).append (cIfCondLogic2_fresh es jumpIf label _)
end

section Faithful

variable (R : Runtime V W X)

/-- The code of a condition, wherever it stands in a program, evaluates the
condition and tests it: it executes the same operations in the same order, it
fails as they do, and it jumps to the label exactly when the truth value has
the given sense and goes on behind the code otherwise. -/
def Faithful (c : Condition) (jumpIf : Bool) (w : W) : Prop :=
  ∀ (P : Program Instr) (p label l : ℕ) (st : List (Obj V)),Consistent (language R) P→
    Sits P p (cIfCond c.expr jumpIf label l).1→
    (P.target label < p ∨ p+(cIfCond c.expr jumpIf label l).1.length≤P.target label)→
    Runs (language R) P p (p+(cIfCond c.expr jumpIf label l).1.length) p ⟨st,⟨w,[]⟩⟩
      (ending (fun b => (if b=jumpIf then P.target label
        else p+(cIfCond c.expr jumpIf label l).1.length,st)) (tested R c.expr ⟨w,[]⟩))

end Faithful

/-- The machine at the end of a run. -/
def endObs : End (State V W) X→Obs W
  | .exit _ s | .raise _ s => s.obs

/-- The machine after an evaluation. -/
theorem endObs_ending (k : α→ℕ×List (Obj V)) (r : Except X α×Obs W) :
    endObs (ending k r)=r.2 := by
  rcases r with ⟨_ | _,_⟩ <;> rfl

/-- The code of a condition is faithful exactly when its evaluation comes to no
tuple and no generator expression in place of a condition that contains an
operation to execute. -/
theorem faithful_iff_kept (R : Runtime V W X) (c : Condition) (jumpIf : Bool) (w : W) :
    Faithful R c jumpIf w↔Kept R c.expr ⟨w,[]⟩ := by
  constructor
  · intro h
    -- a program of this code alone, where the label is the end
    have hfresh := cIfCond_fresh c.expr jumpIf 0 1
    have hconsistent := @consistent_labelOffsets _ _ _ (language R)
      (cIfCond c.expr jumpIf 0 1).1 hfresh.nodup
    have hout : (cIfCond c.expr jumpIf 0 1).1.length≤
        labelOffsets (language R) (cIfCond c.expr jumpIf 0 1).1 0 := by
      exact Nat.le_of_eq (labelOffsets_absent fun hmem =>
        Nat.not_succ_le_zero 0 (hfresh.taken 0 hmem).1).symm
    have hsits : Sits ⟨(cIfCond c.expr jumpIf 0 1).1,
        labelOffsets (language R) (cIfCond c.expr jumpIf 0 1).1⟩ 0
        (cIfCond c.expr jumpIf 0 1).1 := fun k _ => by rw [Nat.zero_add]
    have hcode := cIfCond_performs hconsistent c.expr jumpIf 0 1 0 [] hsits
      (.inr (by rw [Nat.zero_add]; exact hout)) ⟨w,[]⟩
    have hrun := h _ 0 0 1 [] hconsistent hsits (.inr (by rw [Nat.zero_add]; exact hout))
    have hobs := congrArg endObs (hcode.unique hrun)
    rw [endObs_ending,endObs_ending] at hobs
    exact kept_of_trace_eq c (congrArg Obs.trace hobs)
  · intro hkept P p label l st hconsistent hsits hout
    have hcode := cIfCond_performs hconsistent c.expr jumpIf label l p st hsits hout ⟨w,[]⟩
    rw [truth_eq_tested c.expr ⟨w,[]⟩ hkept] at hcode
    exact hcode

/-- Objects and operations without effects. -/
def plainRuntime : Runtime Unit Unit Unit where
  apply := fun _ _ w => (.ok (.bool true),w)
  makeGenerator := fun _ _ w => (.ok (),w)
  test := fun _ w => (.ok true,w)
  test_again := fun _ _ _ _ h => h

/-- The condition `(f(),)`. -/
def callInTuple : Condition := ⟨.tuple [.op 0 []],by decide⟩

/-- The call in `if (f(),):` is not executed. -/
theorem callInTuple_unfaithful : ¬Faithful plainRuntime callInTuple true () := by
  intro h
  have hconsistent : Consistent (language plainRuntime) ⟨[Instr.jump 0],fun _ => 1⟩ := by
    intro p i l hcode hl
    cases p with
    | zero =>
      cases hcode
      cases hl
    | succ p => cases hcode
  have hrun := h ⟨[.jump 0],fun _ => 1⟩ 0 0 1 [] hconsistent (fun k _ => by rw [Nat.zero_add]; rfl)
    (.inr (Nat.le_refl 1))
  have hcode : Runs (language plainRuntime) ⟨[Instr.jump 0],fun _ => 1⟩ 0 1 0
      ⟨([] : List (Obj Unit)),⟨(),[]⟩⟩ (.exit 1 ⟨[],⟨(),[]⟩⟩) :=
    .step (Nat.le_refl 0) Nat.zero_lt_one rfl rfl (.exit _ (.inr (Nat.le_refl 1)))
  cases hcode.unique hrun

end MicroPython.IfCond
