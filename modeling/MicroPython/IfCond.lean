import MicroPython.ConditionCode

/-!
# Runs of the code of conditions

The code of an expression pushes its value, and the code of `c_if_cond` jumps as
its own way of finding a truth value says. Each piece of code is placed anywhere
in a program and runs from the states of its parts.
-/

namespace MicroPython.IfCond

open Nat List CodeFragment ConditionCode

variable {V W X α β : Type} {R : Runtime V W X}

section Code

variable (R)

mutual
/-- How the code of `c_if_cond` finds the truth value of an expression. -/
def truth : Expr→Act W X Bool
  | .orTest e es => (truth e).bind (truthRest true es)
  | .andTest e es => (truth e).bind (truthRest false es)
  | .notTest e => (truth e).bind fun b => .pure (!b)
  | .tuple items => .pure (!items.isEmpty)
  | .genExpr _ _ => .pure true
  | e => tested R e

/-- The operands of `or` and `and` after one with the truth value `b`. -/
def truthRest (stop : Bool) : List Expr→Bool→Act W X Bool
  | [],b => .pure b
  | e::es,b => if b=stop then .pure b else (truth e).bind (truthRest stop es)
end

/-- The end of code that has carried an evaluation out: an exception, or the
position and stack that `k` says. -/
def ending (k : α→ℕ×List (Obj V)) : Except X α×Obs W→End (State V W) X
  | (.ok x,o) => .exit (k x).1 ⟨(k x).2,o⟩
  | (.error e,o) => .raise e ⟨[],o⟩

/-- The code from position `ip` with a stack carries an evaluation out, inside
the given range, and ends where `k` says. -/
def Performs (P : Program Instr) (lo hi ip : ℕ) (st : List (Obj V)) (a : Act W X α)
    (k : α→ℕ×List (Obj V)) : Prop :=
  ∀ o,Runs (language R) P lo hi ip ⟨st,o⟩ (ending k (a o))

end Code

variable {P : Program Instr} {lo hi lo' hi' ip : ℕ} {st : List (Obj V)}

variable {a : Act W X α} {f : α→Act W X β} {k : β→ℕ×List (Obj V)}

/-- An evaluation in a part, whose results have a property, and then the rest
in the whole. -/
theorem Performs.bind_of {k' : α→ℕ×List (Obj V)}
    {Q : α→Prop} (ha : Performs R P lo' hi' ip st a k') (hlo : lo≤lo')
    (hhi : hi'≤hi) (hQ : ∀ o x o',a o=(.ok x,o')→Q x)
    (hf : ∀ x,Q x→Performs R P lo hi (k' x).1 (k' x).2 (f x) k) :
    Performs R P lo hi ip st (a.bind f) k := by
  intro o
  have hao := ha o
  have hQo := hQ o
  rw [Act.bind]
  generalize a o=r at hao hQo
  rcases r with ⟨_ | x,o'⟩
  · exact hao.raise_in hlo hhi
  · have hfx := hf x (hQo x o' rfl) o'
    dsimp only
    generalize f x o'=r at hfx
    rcases r with ⟨_ | _,o''⟩
    · exact hao.extend hlo hhi hfx
    · exact hao.extend hlo hhi hfx

theorem Performs.bind {k' : α→ℕ×List (Obj V)}
    (ha : Performs R P lo' hi' ip st a k') (hlo : lo≤lo') (hhi : hi'≤hi)
    (hf : ∀ x,Performs R P lo hi (k' x).1 (k' x).2 (f x) k) :
    Performs R P lo hi ip st (a.bind f) k :=
  ha.bind_of hlo hhi (fun _ _ _ _ => trivial) fun x _ => hf x

/-- Nothing is left to do outside the range. -/
theorem Performs.exit {x : α} {k : α→ℕ×List (Obj V)} (hk : k x=(ip,st))
    (hout : ip < lo ∨ hi ≤ ip) : Performs R P lo hi ip st (Act.pure x : Act W X α) k := by
  intro o
  rw [Act.pure,ending,hk]
  exact .exit _ hout

/-- An instruction whose last action is an evaluation, and then the rest. -/
theorem Performs.finish {i : Instr} {next : α→ℕ×List (Obj V)} (hlo : lo ≤ ip) (hhi : ip < hi)
    (hcode : P.code[ip]?=some i)
    (hstep : ∀ o,step R P.target i (ip+1) ⟨st,o⟩=ConditionCode.finish o a next)
    (hnext : ∀ x,Performs R P lo hi (next x).1 (next x).2 (f x) k) :
    Performs R P lo hi ip st (a.bind f) k := by
  intro o
  have hso := hstep o
  rw [ConditionCode.finish] at hso
  rw [Act.bind]
  generalize a o=r at hso
  rcases r with ⟨_ | x,o'⟩
  · exact .raise hlo hhi hcode hso
  · have hfx := hnext x o'
    dsimp only
    generalize f x o'=r at hfx
    rcases r with ⟨_ | _,o''⟩
    · exact .step hlo hhi hcode hso hfx
    · exact .step hlo hhi hcode hso hfx

/-- Nothing more after an evaluation. -/
theorem Act.bind_pure (a : Act W X α) : a.bind Act.pure=a := by
  funext o
  rw [Act.bind]
  rcases a o with ⟨_ | _,_⟩ <;> rfl

/-- An instruction that only goes on. -/
theorem Performs.step {i : Instr} {a : Act W X α} {k : α→ℕ×List (Obj V)} {ip' : ℕ}
    {st' : List (Obj V)} (hlo : lo ≤ ip) (hhi : ip < hi) (hcode : P.code[ip]?=some i)
    (hstep : ∀ o,ConditionCode.step R P.target i (ip+1) ⟨st,o⟩=.next ip' ⟨st',o⟩)
    (hrest : Performs R P lo hi ip' st' a k) : Performs R P lo hi ip st a k := by
  intro o
  have hro := hrest o
  generalize a o=r at hro
  rcases r with ⟨_ | _,o'⟩
  · exact .step hlo hhi hcode (hstep o) hro
  · exact .step hlo hhi hcode (hstep o) hro

variable {o o' : Obs W}

/-- After a result. -/
theorem Act.bind_ok {x : α} (h : a o=(.ok x,o')) : a.bind f o=f x o' := by
  rw [Act.bind,h]

/-- After an exception. -/
theorem Act.bind_error {e : X} (h : a o=(.error e,o')) : a.bind f o=(.error e,o') := by
  rw [Act.bind,h]

/-- A result of two evaluations comes from one of each. -/
theorem Act.of_bind_ok {y : β}
    (h : a.bind f o=(.ok y,o')) : ∃ x o₁,a o=(.ok x,o₁) ∧ f x o₁=(.ok y,o') := by
  cases ha : a o with
  | mk r o₁ =>
    rcases r with e | x
    · rw [Act.bind_error ha] at h
      cases h
    · rw [Act.bind_ok ha] at h
      exact ⟨x,o₁,rfl,h⟩

/-- There are as many values as expressions. -/
theorem evalAll_length (es : List Expr) (o : Obs W) (vs : List (Obj V)) (o' : Obs W)
    (h : evalAll R es o=(.ok vs,o')) : vs.length=es.length := by
  induction es generalizing o vs o' with
  | nil =>
    rw [evalAll] at h
    cases h
    rfl
  | cons e es ih =>
    rw [evalAll] at h
    obtain ⟨v,o₁,_,h⟩ := Act.of_bind_ok h
    obtain ⟨vs',o₂,hes,h⟩ := Act.of_bind_ok h
    cases h
    rw [length_cons,length_cons,ih _ vs' _ hes]

variable {l p : ℕ}

theorem target_label (hconsistent : Consistent (language R) P)
    (h : P.code[p]?=some (.label l)) : P.target l=p := hconsistent p _ l h rfl

mutual
/-- The code of an expression pushes its value. -/
theorem compileNode_performs (hconsistent : Consistent (language R) P) :
    ∀ (e : Expr) (l p : ℕ) (st : List (Obj V)),
    Sits P p (compileNode e l).1→
    Performs R P p (p+(compileNode e l).1.length) p st (eval R e)
      fun v => (p+(compileNode e l).1.length,v::st)
  | .token b,l,p,st,h => by
    rw [compileNode,sits_singleton] at h
    rw [eval,compileNode]
    exact .step (Nat.le_refl p) (lt_succ_self p) h (fun _ => rfl) (.exit rfl (.inr (Nat.le_refl _)))
  | .smallInt n,l,p,st,h => by
    rw [compileNode,sits_singleton] at h
    rw [eval,compileNode]
    exact .step (Nat.le_refl p) (lt_succ_self p) h (fun _ => rfl) (.exit rfl (.inr (Nat.le_refl _)))
  | .const id truth,l,p,st,h => by
    rw [compileNode,sits_singleton] at h
    rw [eval,compileNode]
    exact .step (Nat.le_refl p) (lt_succ_self p) h (fun _ => rfl) (.exit rfl (.inr (Nat.le_refl _)))
  | .op id args,l,p,st,h => by
    rw [compileNode] at h ⊢
    rw [eval]
    rw [sits_append,sits_singleton] at h
    rw [length_append,length_singleton]
    have hargs := compileNodes_performs hconsistent args l p st h.1
    generalize (compileNodes args l).1.length=n at *
    refine hargs.bind_of (Nat.le_refl p) (by omega) (evalAll_length args) fun vs hlength => ?_
    have hstep : ∀ o,step R P.target (.op id args.length) (p+n+1) ⟨vs.reverse++st,o⟩=
        finish o (.traced id (R.apply id vs)) fun v => (p+n+1,v::st) := by
      intro o
      rw [step,← hlength,← length_reverse,take_left,drop_left,reverse_reverse]
    rw [← Act.bind_pure (.traced id (R.apply id vs))]
    exact .finish (by omega) (by omega) h.2 hstep fun v => .exit rfl (.inr (by dsimp only; omega))
  | .tuple items,l,p,st,h => by
    rw [compileNode] at h ⊢
    rw [eval]
    dsimp only at h ⊢
    rw [sits_append,sits_singleton] at h
    rw [length_append,length_singleton]
    have hitems := compileNodes_performs hconsistent items l p st h.1
    generalize (compileNodes items l).1.length=n at *
    refine hitems.bind_of (Nat.le_refl p) (by omega) (evalAll_length items) fun vs hlength => ?_
    refine @Performs.step _ _ _ _ _ _ _ _ _ _ _ _ _ (p+n+1) (.tuple vs::st) (by omega)
      (by omega) h.2 ?_ (.exit rfl (.inr (Nat.le_refl _)))
    intro o
    rw [step,← hlength,← length_reverse,take_left,drop_left,reverse_reverse]
  | .genExpr id iterable,l,p,st,h => by
    rw [compileNode] at h ⊢
    rw [eval]
    dsimp only at h ⊢
    rw [sits_append,sits_singleton] at h
    rw [length_append,length_singleton]
    have hiterable := compileNode_performs hconsistent iterable l p st h.1
    generalize (compileNode iterable l).1.length=n at *
    refine hiterable.bind (Nat.le_refl p) (by omega) fun v => ?_
    exact .finish (by omega) (by omega) h.2 (fun _ => rfl) fun g =>
      .exit rfl (.inr (by dsimp only; omega))
  | .orTest e es,l,p,st,h => by
    rw [compileNode] at h ⊢
    rw [eval]
    dsimp only at h ⊢
    rw [sits_append,sits_append,sits_singleton,length_append] at h
    rw [length_append,length_append,length_singleton]
    have htarget := target_label hconsistent h.2
    have he := compileNode_performs hconsistent e (l+1) p st h.1.1
    have hes := compileOrAndRest_performs hconsistent es true l _ _ st h.1.2
      (by rw [htarget]; omega)
    have hlabel := h.2
    rw [← Nat.add_assoc] at hlabel
    refine he.bind (Nat.le_refl p) (by omega) fun v => ?_
    rw [← Act.bind_pure (evalRest R true es v)]
    refine (hes v).bind (by omega) (by omega) fun v => ?_
    exact .step (by dsimp only; omega) (by dsimp only; omega) hlabel (fun _ => rfl)
      (.exit (by rw [Nat.add_assoc p,Nat.add_assoc p]) (.inr (by dsimp only; omega)))
  | .andTest e es,l,p,st,h => by
    rw [compileNode] at h ⊢
    rw [eval]
    dsimp only at h ⊢
    rw [sits_append,sits_append,sits_singleton,length_append] at h
    rw [length_append,length_append,length_singleton]
    have htarget := target_label hconsistent h.2
    have he := compileNode_performs hconsistent e (l+1) p st h.1.1
    have hes := compileOrAndRest_performs hconsistent es false l _ _ st h.1.2
      (by rw [htarget]; omega)
    have hlabel := h.2
    rw [← Nat.add_assoc] at hlabel
    refine he.bind (Nat.le_refl p) (by omega) fun v => ?_
    rw [← Act.bind_pure (evalRest R false es v)]
    refine (hes v).bind (by omega) (by omega) fun v => ?_
    exact .step (by dsimp only; omega) (by dsimp only; omega) hlabel (fun _ => rfl)
      (.exit (by rw [Nat.add_assoc p,Nat.add_assoc p]) (.inr (by dsimp only; omega)))
  | .notTest e,l,p,st,h => by
    rw [compileNode] at h ⊢
    rw [eval]
    dsimp only at h ⊢
    rw [sits_append,sits_singleton] at h
    rw [length_append,length_singleton]
    have he := compileNode_performs hconsistent e l p st h.1
    generalize (compileNode e l).1.length=n at *
    refine he.bind (Nat.le_refl p) (by omega) fun v => ?_
    exact .finish (by omega) (by omega) h.2 (fun _ => rfl) fun b =>
      .exit rfl (.inr (by dsimp only; omega))

/-- The code of expressions in a row pushes their values. -/
theorem compileNodes_performs (hconsistent : Consistent (language R) P) :
    ∀ (es : List Expr) (l p : ℕ) (st : List (Obj V)),
    Sits P p (compileNodes es l).1→
    Performs R P p (p+(compileNodes es l).1.length) p st (evalAll R es)
      fun vs => (p+(compileNodes es l).1.length,vs.reverse++st)
  | [],l,p,st,h => by
    rw [compileNodes,evalAll]
    exact .exit rfl (.inr (Nat.le_refl p))
  | e::es,l,p,st,h => by
    rw [compileNodes] at h ⊢
    rw [evalAll]
    rw [sits_append] at h
    rw [length_append]
    refine (compileNode_performs hconsistent e l p st h.1).bind (Nat.le_refl p) (by omega) fun v => ?_
    refine (compileNodes_performs hconsistent es _ _ (v::st) h.2).bind (by omega) (by omega) fun vs => ?_
    refine .exit ?_ (.inr (by dsimp only; omega))
    rw [reverse_cons,append_assoc,singleton_append,Nat.add_assoc]

/-- The code of the further operands of `or` and `and`, behind a value, leaves
the value of all. The label stands behind that code. -/
theorem compileOrAndRest_performs (hconsistent : Consistent (language R) P) :
    ∀ (es : List Expr) (stop : Bool) (lEnd l p : ℕ)
    (st : List (Obj V)),Sits P p (compileOrAndRest es stop lEnd l).1→
    P.target lEnd=p+(compileOrAndRest es stop lEnd l).1.length→∀ v,
    Performs R P p (p+(compileOrAndRest es stop lEnd l).1.length) p (v::st)
      (evalRest R stop es v) fun v => (p+(compileOrAndRest es stop lEnd l).1.length,v::st)
  | [],stop,lEnd,l,p,st,h,htarget,v => by
    rw [compileOrAndRest,evalRest]
    exact .exit rfl (.inr (Nat.le_refl p))
  | e::es,stop,lEnd,l,p,st,h,htarget,v => by
    rw [compileOrAndRest] at h htarget ⊢
    rw [evalRest]
    rw [sits_cons,sits_append] at h
    rw [length_cons,length_append] at htarget ⊢
    refine .finish (Nat.le_refl p) (by omega) h.1 (fun _ => rfl) fun b => ?_
    split
    · rw [htarget]
      exact .exit rfl (.inr (Nat.le_refl _))
    · refine (compileNode_performs hconsistent e l (p+1) st h.2.1).bind (by omega) (by omega)
        fun v => ?_
      have hes := compileOrAndRest_performs hconsistent es stop lEnd _ _ st h.2.2
        (by rw [htarget]; omega) v
      rw [← Act.bind_pure (evalRest R stop es v)]
      refine hes.bind (by omega) (by omega) fun v => .exit ?_ (.inr (by dsimp only; omega))
      rw [Prod.mk.injEq]
      exact ⟨by omega,rfl⟩
end

/-- A known truth value needs a jump at most. -/
theorem known_performs {b jumpIf : Bool} {label p : ℕ} {code : List Instr}
    (hcode : code=if jumpIf=b then [.jump label] else []) (hsits : Sits P p code)
    (hout : P.target label < p ∨ p+code.length≤P.target label) (st : List (Obj V)) :
    Performs R P p (p+code.length) p st (Act.pure b : Act W X Bool)
      fun b => (if b=jumpIf then P.target label else p+code.length,st) := by
  cases Decidable.em (jumpIf=b) with
  | inl h =>
    rw [if_pos h] at hcode
    rw [hcode] at hsits hout ⊢
    rw [sits_singleton] at hsits
    refine .step (Nat.le_refl p) (lt_succ_self p) hsits (fun _ => rfl) (.exit ?_ hout)
    rw [if_pos h.symm]
  | inr h =>
    rw [if_neg h] at hcode
    rw [hcode]
    refine .exit ?_ (.inr (Nat.le_refl p))
    rw [if_neg fun heq => h heq.symm]
    rfl

variable {e : Expr} {label : ℕ}

/-- An expression without a rule of its own is compiled for its value. -/
theorem default_performs (hconsistent : Consistent (language R) P) {jumpIf : Bool}
    (hsits : Sits P p ((compileNode e l).1++[Instr.popJumpIf jumpIf label]))
    (hout : P.target label < p ∨
      p+((compileNode e l).1++[Instr.popJumpIf jumpIf label]).length≤P.target label)
    (st : List (Obj V)) :
    Performs R P p (p+((compileNode e l).1++[Instr.popJumpIf jumpIf label]).length) p st
      (tested R e) fun b => (if b=jumpIf then P.target label else
        p+((compileNode e l).1++[Instr.popJumpIf jumpIf label]).length,st) := by
  rw [sits_append,sits_singleton] at hsits
  rw [length_append,length_singleton] at hout ⊢
  refine (compileNode_performs hconsistent e l p st hsits.1).bind (Nat.le_refl p) (by omega)
    fun v => ?_
  generalize (compileNode e l).1.length=n at *
  rw [← Act.bind_pure (isTrue R v)]
  refine .finish (by omega) (by omega) hsits.2 (fun _ => rfl) fun b => .exit rfl ?_
  dsimp only
  split
  · exact hout
  · exact .inr (by omega)

/-- The rest of `or` and `and` does not run after a deciding operand. -/
theorem truthRest_stop (stop : Bool) (es : List Expr) : truthRest R stop es stop=Act.pure stop := by
  cases es with
  | nil => rw [truthRest]
  | cons e es => rw [truthRest,if_pos rfl]

/-- The rest of `or` and `and` runs after another operand. -/
theorem truthRest_go (stop : Bool) (e : Expr) (es : List Expr) :
    truthRest R stop (e::es) (!stop)=(truth R e).bind (truthRest R stop es) := by
  rw [truthRest,if_neg (by cases stop <;> decide)]

variable {jumpIf : Bool} {es : List Expr}

/-- A branch to a place outside or to the end. -/
theorem branch_out {m t : ℕ} {j : Bool} (h : t < p ∨ m≤t) (b : Bool) :
    (if b=j then t else m) < p ∨ m ≤ if b=j then t else m := by
  split
  · exact h
  · exact .inr (Nat.le_refl m)

/-- An operand that is not the last of `and_or_logic1` or `and_or_logic2`, and those after it. -/
theorem logic_performs {a : Act W X Bool} {stop : Bool} {target : Bool→ℕ} {n₁ n₂ : ℕ}
    (hfirst : Performs R P p (p+n₁) p st a fun b => (if b=stop then target stop else p+n₁,st))
    (hrest : Performs R P (p+n₁) (p+n₁+n₂) (p+n₁) st (truthRest R stop es (!stop))
      fun b => (target b,st))
    (hout : ∀ b,target b < p ∨ p+n₁+n₂≤target b) :
    Performs R P p (p+n₁+n₂) p st (a.bind (truthRest R stop es)) fun b => (target b,st) := by
  refine hfirst.bind (Nat.le_refl p) (by omega) fun b => ?_
  split
  case isTrue h =>
    rw [h,truthRest_stop]
    exact .exit rfl (hout stop)
  case isFalse h =>
    obtain rfl : b=(!stop) := by
      cases b <;> cases stop <;> first | rfl | exact absurd rfl h
    rw [← Act.bind_pure (truthRest R stop es _)]
    exact hrest.bind (by omega) (by omega) fun b => .exit rfl (hout b)

/-- The label behind `and_or_logic1` takes the fall through on. -/
theorem behind_label {a : Act W X Bool} {n : ℕ}
    (ha : Performs R P p (p+n) p st a fun b => (if b=jumpIf then P.target label else p+n,st))
    (hlabel : P.code[p+n]?=some (.label l)) (hout : P.target label < p ∨ p+(n+1)≤P.target label) :
    Performs R P p (p+(n+1)) p st a
      fun b => (if b=jumpIf then P.target label else p+(n+1),st) := by
  rw [← Act.bind_pure a]
  refine ha.bind (Nat.le_refl p) (by omega) fun b => ?_
  split
  case isTrue h =>
    refine .exit ?_ hout
    rw [if_pos h]
  case isFalse h =>
    refine .step (by omega) (by omega) hlabel (fun _ => rfl) (.exit ?_ (.inr (by omega)))
    rw [if_neg h]
    rfl

section Right

variable (R P)

/-- The code of `c_if_cond` jumps when the condition has the given sense, and
goes on behind the code otherwise. -/
def CondRight (e : Expr) : Prop :=
  ∀ (jumpIf : Bool) (label l p : ℕ) (st : List (Obj V)),Sits P p (cIfCond e jumpIf label l).1→
    (P.target label < p ∨ p+(cIfCond e jumpIf label l).1.length≤P.target label)→
    Performs R P p (p+(cIfCond e jumpIf label l).1.length) p st (truth R e)
      fun b => (if b=jumpIf then P.target label else p+(cIfCond e jumpIf label l).1.length,st)

/-- So does that of the further operands of `and_or_logic1`, where a deciding
operand leads behind the code. -/
def Logic1Right (es : List Expr) : Prop :=
  ∀ (jumpIf : Bool) (label label2 l p : ℕ) (st : List (Obj V)),es.isEmpty=false→
    Sits P p (cIfCondLogic1 es jumpIf label label2 l).1→
    P.target label2=p+(cIfCondLogic1 es jumpIf label label2 l).1.length→
    (P.target label < p ∨ p+(cIfCondLogic1 es jumpIf label label2 l).1.length≤P.target label)→
    Performs R P p (p+(cIfCondLogic1 es jumpIf label label2 l).1.length) p st
      (truthRest R (!jumpIf) es jumpIf) fun b => (if b=jumpIf then P.target label else
        p+(cIfCondLogic1 es jumpIf label label2 l).1.length,st)

/-- So does that of the further operands of `and_or_logic2`. -/
def Logic2Right (es : List Expr) : Prop :=
  ∀ (jumpIf : Bool) (label l p : ℕ) (st : List (Obj V)),
    Sits P p (cIfCondLogic2 es jumpIf label l).1→
    (P.target label < p ∨ p+(cIfCondLogic2 es jumpIf label l).1.length≤P.target label)→
    Performs R P p (p+(cIfCondLogic2 es jumpIf label l).1.length) p st
      (truthRest R jumpIf es (!jumpIf)) fun b => (if b=jumpIf then P.target label else
        p+(cIfCondLogic2 es jumpIf label l).1.length,st)

end Right

variable {c d : List Instr×ℕ}

/-- An operand of `and_or_logic1` and those after it, up to `label2`. -/
theorem logic1_first (he : CondRight R P e) (hes : Logic1Right R P es) {label2 : ℕ}
    (hc : c=if es.isEmpty then cIfCond e jumpIf label l else cIfCond e (!jumpIf) label2 l)
    (hd : d=cIfCondLogic1 es jumpIf label label2 c.2) (hsits : Sits P p (c.1++d.1))
    (htarget : P.target label2=p+(c.1++d.1).length)
    (hout : P.target label < p ∨ p+(c.1++d.1).length≤P.target label) (st : List (Obj V)) :
    Performs R P p (p+(c.1++d.1).length) p st ((truth R e).bind (truthRest R (!jumpIf) es))
      fun b => (if b=jumpIf then P.target label else p+(c.1++d.1).length,st) := by
  rw [sits_append] at hsits
  rw [length_append] at htarget hout ⊢
  cases hempty : es.isEmpty with
  | true =>
    obtain rfl : es=[] := isEmpty_iff.mp hempty
    rw [hempty,if_pos rfl] at hc
    rw [cIfCondLogic1] at hd
    subst hc hd
    have hpure : truthRest R (!jumpIf) []=(Act.pure : Bool→Act W X Bool) := by
      funext b
      rw [truthRest]
    rw [hpure,Act.bind_pure]
    exact he jumpIf label l p st hsits.1 hout
  | false =>
    rw [hempty,if_neg nofun] at hc
    subst hc
    have hfirst := he (!jumpIf) label2 l p st hsits.1 (by rw [htarget]; omega)
    rw [hd] at hsits htarget hout ⊢
    have hrest := hes jumpIf label label2 _ _ st hempty hsits.2 (by rw [htarget]; omega) (by omega)
    rw [← Nat.add_assoc] at htarget hout ⊢
    rw [htarget] at hfirst
    cases jumpIf <;> exact logic_performs hfirst hrest (branch_out hout)

/-- An operand of `and_or_logic2` and those after it. -/
theorem logic2_first (he : CondRight R P e) (hes : Logic2Right R P es) {jumpIf : Bool}
    (hc : c=cIfCond e jumpIf label l) (hd : d=cIfCondLogic2 es jumpIf label c.2)
    (hsits : Sits P p (c.1++d.1))
    (hout : P.target label < p ∨ p+(c.1++d.1).length≤P.target label) (st : List (Obj V)) :
    Performs R P p (p+(c.1++d.1).length) p st ((truth R e).bind (truthRest R jumpIf es))
      fun b => (if b=jumpIf then P.target label else p+(c.1++d.1).length,st) := by
  rw [sits_append] at hsits
  rw [length_append,← Nat.add_assoc] at hout ⊢
  subst hc hd
  refine logic_performs ?_ (hes jumpIf label _ _ st hsits.2 (by omega)) (branch_out hout)
  rw [if_pos rfl]
  exact he jumpIf label l p st hsits.1 (by omega)

/-- All of `and_or_logic1`. -/
theorem logic1_all (hconsistent : Consistent (language R) P)
    (he : CondRight R P e) (hes : Logic1Right R P es) {jumpIf : Bool}
    (hc : c=if es.isEmpty then cIfCond e jumpIf label (l+1) else cIfCond e (!jumpIf) l (l+1))
    (hd : d=cIfCondLogic1 es jumpIf label l c.2) (hsits : Sits P p (c.1++d.1++[.label l]))
    (hout : P.target label < p ∨ p+(c.1++d.1++[Instr.label l]).length≤P.target label)
    (st : List (Obj V)) :
    Performs R P p (p+(c.1++d.1++[Instr.label l]).length) p st
      ((truth R e).bind (truthRest R (!jumpIf) es))
      fun b => (if b=jumpIf then P.target label else
        p+(c.1++d.1++[Instr.label l]).length,st) := by
  rw [sits_append,sits_singleton] at hsits
  rw [length_append,length_singleton] at hout ⊢
  exact behind_label (logic1_first he hes hc hd hsits.1 (target_label hconsistent hsits.2)
    (by omega) st) hsits.2 hout

mutual
/-- The code of every condition. -/
theorem cIfCond_performs (hconsistent : Consistent (language R) P) :
    ∀ e : Expr,CondRight R P e
  | .token b,jumpIf,label,l,p,st,h,hout => by
    refine @known_performs _ _ _ R _ b jumpIf label p _ ?_ h hout st
    cases b <;> cases jumpIf <;> rfl
  | .smallInt n,jumpIf,label,l,p,st,h,hout => by
    refine @known_performs _ _ _ R _ (decide (n≠0)) jumpIf label p _ ?_ h hout st
    cases Decidable.em (n=0) with
    | inl hn =>
      rw [hn]
      cases jumpIf <;> rfl
    | inr hn =>
      have hfalse : isConstFalse (.smallInt n)=false := decide_eq_false hn
      have htrue : isConstTrue (.smallInt n)=true := decide_eq_true hn
      unfold cIfCond
      rw [hfalse,htrue,decide_eq_true hn]
      cases jumpIf <;> rfl
  | .const id t,jumpIf,label,l,p,st,h,hout => default_performs hconsistent h hout st
  | .op id args,jumpIf,label,l,p,st,h,hout => default_performs hconsistent h hout st
  | .tuple items,jumpIf,label,l,p,st,h,hout => by
    rw [truth]
    refine known_performs ?_ h hout st
    rw [cIfCond]
    cases items.isEmpty <;> rfl
  | .genExpr id iterable,jumpIf,label,l,p,st,h,hout => by
    rw [truth]
    refine known_performs ?_ h hout st
    rw [cIfCond]
  | .orTest e es,false,label,l,p,st,h,hout => by
    rw [truth]
    exact logic1_all hconsistent (cIfCond_performs hconsistent e)
      (cIfCondLogic1_performs hconsistent es) rfl rfl h hout st
  | .orTest e es,true,label,l,p,st,h,hout => by
    rw [truth]
    exact logic2_first (cIfCond_performs hconsistent e) (cIfCondLogic2_performs hconsistent es)
      rfl rfl h hout st
  | .andTest e es,false,label,l,p,st,h,hout => by
    rw [truth]
    exact logic2_first (cIfCond_performs hconsistent e) (cIfCondLogic2_performs hconsistent es)
      rfl rfl h hout st
  | .andTest e es,true,label,l,p,st,h,hout => by
    rw [truth]
    exact logic1_all hconsistent (cIfCond_performs hconsistent e)
      (cIfCondLogic1_performs hconsistent es) rfl rfl h hout st
  | .notTest e,jumpIf,label,l,p,st,h,hout => by
    rw [cIfCond] at h hout ⊢
    rw [truth]
    refine (cIfCond_performs hconsistent e (!jumpIf) label l p st h hout).bind (Nat.le_refl p)
      (Nat.le_refl _) fun b => ?_
    refine .exit ?_ ?_
    · cases b <;> cases jumpIf <;> rfl
    · split
      · exact hout
      · exact .inr (Nat.le_refl _)

/-- The code of the further operands of `and_or_logic1`. -/
theorem cIfCondLogic1_performs (hconsistent : Consistent (language R) P) :
    ∀ es : List Expr,Logic1Right R P es
  | [],_,_,_,_,_,_,hempty,_,_,_ => nomatch hempty
  | e::es,jumpIf,label,label2,l,p,st,_,h,htarget,hout => by
    have hgo : truthRest R (!jumpIf) (e::es) jumpIf=
        (truth R e).bind (truthRest R (!jumpIf) es) := by
      have h := @truthRest_go _ _ _ R (!jumpIf) e es
      rw [Bool.not_not] at h
      exact h
    rw [hgo]
    exact logic1_first (cIfCond_performs hconsistent e) (cIfCondLogic1_performs hconsistent es)
      rfl rfl h htarget hout st

/-- The code of the further operands of `and_or_logic2`. -/
theorem cIfCondLogic2_performs (hconsistent : Consistent (language R) P) :
    ∀ es : List Expr,Logic2Right R P es
  | [],jumpIf,label,l,p,st,h,hout => by
    rw [cIfCondLogic2,truthRest]
    refine .exit ?_ (.inr (Nat.le_refl p))
    rw [if_neg (by cases jumpIf <;> decide)]
    rfl
  | e::es,jumpIf,label,l,p,st,h,hout => by
    rw [truthRest_go]
    exact logic2_first (cIfCond_performs hconsistent e) (cIfCondLogic2_performs hconsistent es)
      rfl rfl h hout st
end

end MicroPython.IfCond
