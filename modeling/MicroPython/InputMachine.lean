import Mathlib.Data.List.Basic

/-!
# Machines fed with inputs

A machine takes inputs one at a time. Each changes its state and gives an
output, or is a fault that ends the run. Runs compose along the inputs, what
every step keeps holds after every run, and a machine made of independent parts
runs without a fault when each part does on the inputs that are its own.
-/

namespace MicroPython.InputMachine

open List

variable {σ ι ω ε τ κ : Type}

/-- The run of a step over inputs, with the outputs in order. -/
def run (step : σ→ι→Except ε (σ×ω)) : σ→List ι→Except ε (σ×List ω)
  | s,[] => .ok (s,[])
  | s,i::is =>
    match step s i with
    | .error e => .error e
    | .ok (s,o) =>
      match run step s is with
      | .error e => .error e
      | .ok (s,os) => .ok (s,o::os)

/-- A run without a fault. -/
def Succeeds (step : σ→ι→Except ε (σ×ω)) (s : σ) (is : List ι) : Prop :=
  ∃ r,run step s is=.ok r

variable {step : σ→ι→Except ε (σ×ω)}

/-- Nothing happens without inputs. -/
@[simp]
theorem run_nil (s : σ) : run step s []=.ok (s,[]) := rfl

/-- A run over no inputs succeeds. -/
theorem succeeds_nil (s : σ) : Succeeds step s [] := ⟨_,rfl⟩

variable {o : ω} {is : List ι}

variable {s t : σ} {i : ι}

theorem run_cons_ok (h : step s i=.ok (t,o)) : run step s (i::is)=
      match run step t is with
      | .error e => .error e
      | .ok (s,os) => .ok (s,o::os) := by
  rw [run,h]

/-- A run that begins with a fault. -/
theorem run_cons_error {e : ε} (h : step s i=.error e) : run step s (i::is)=.error e := by
  rw [run,h]

variable {os : List ω}

/-- A successful run begins with a successful step. -/
theorem run_cons_eq_ok {u : σ} : run step s (i::is)=.ok (u,os)↔
      ∃ t o os',step s i=.ok (t,o)∧run step t is=.ok (u,os')∧os=o::os' := by
  cases hstep : step s i with
  | error e =>
    rw [run_cons_error hstep]
    constructor
    · intro h
      cases h
    · rintro ⟨t,o,os',h,_⟩
      cases h
  | ok r =>
    obtain ⟨t,o⟩ := r
    rw [run_cons_ok hstep]
    cases hrun : run step t is with
    | error e =>
      constructor
      · intro h
        cases h
      · rintro ⟨t',o',os',h,h',_⟩
        cases h
        rw [hrun] at h'
        cases h'
    | ok r =>
      constructor
      · intro h
        cases h
        exact ⟨t,o,r.2,rfl,hrun,rfl⟩
      · rintro ⟨t',o',os',h,h',rfl⟩
        cases h
        rw [hrun] at h'
        cases h'
        rfl

/-- A run begins with a step, and succeeds when the rest does. -/
theorem succeeds_cons (h : step s i=.ok (t,o)) : Succeeds step s (i::is)↔Succeeds step t is := by
  constructor
  · rintro ⟨⟨u,os⟩,hrun⟩
    obtain ⟨t',o',os',hstep,hrest,_⟩ := run_cons_eq_ok.mp hrun
    rw [h] at hstep
    cases hstep
    exact ⟨_,hrest⟩
  · rintro ⟨⟨u,os⟩,hrun⟩
    exact ⟨_,run_cons_eq_ok.mpr ⟨t,o,os,h,hrun,rfl⟩⟩

/-- A fault at the first input. -/
theorem not_succeeds_cons {e : ε} (h : step s i=.error e) : ¬Succeeds step s (i::is) := by
  rintro ⟨r,hrun⟩
  rw [run_cons_error h] at hrun
  cases hrun

variable {js : List ι}

/-- Runs in a row. -/
theorem run_append {u : σ} {ps : List ω}
    (his : run step s is=.ok (t,os)) (hjs : run step t js=.ok (u,ps)) :
    run step s (is++js)=.ok (u,os++ps) := by
  induction is generalizing s os with
  | nil =>
    cases his
    exact hjs
  | cons i is ih =>
    obtain ⟨m,o,os',hstep,hrest,rfl⟩ := run_cons_eq_ok.mp his
    exact run_cons_eq_ok.mpr ⟨m,o,os'++ps,hstep,ih hrest,rfl⟩

/-- After a run that succeeds, the whole succeeds when the rest does. -/
theorem succeeds_append (his : run step s is=.ok (t,os)) :
    Succeeds step s (is++js)↔Succeeds step t js := by
  induction is generalizing s os with
  | nil =>
    cases his
    exact Iff.rfl
  | cons i is ih =>
    obtain ⟨m,o,os',hstep,hrest,_⟩ := run_cons_eq_ok.mp his
    exact (succeeds_cons hstep).trans (ih hrest)

/-- A run that succeeds has done so up to any point. -/
theorem succeeds_of_append (is js : List ι) (h : Succeeds step s (is++js)) :
    Succeeds step s is := by
  induction is generalizing s with
  | nil => exact succeeds_nil s
  | cons i is ih =>
    cases hstep : step s i with
    | error e => exact absurd h (not_succeeds_cons hstep)
    | ok r =>
      rw [cons_append,succeeds_cons hstep] at h
      exact (succeeds_cons hstep).mpr (ih h)

/-- There are as many outputs as inputs. -/
theorem length_of_run (h : run step s is=.ok (t,os)) : is.length=os.length := by
  induction is generalizing s os with
  | nil =>
    cases h
    rfl
  | cons i is ih =>
    obtain ⟨m,o,os',_,hrest,rfl⟩ := run_cons_eq_ok.mp h
    rw [length_cons,length_cons,ih hrest]

/-- When the steps of two machines agree on states that are related, so do their runs. -/
theorem run_refines {step' : τ→ι→Except ε (τ×ω)} {rel : σ→τ→Prop}
    (hstep : ∀ s t i,rel s t → ∃ s' t' o,step s i=.ok (s',o)∧step' t i=.ok (t',o)∧rel s' t')
    {t : τ} (h : rel s t) (is : List ι) :
    ∃ s' t' os,run step s is=.ok (s',os)∧run step' t is=.ok (t',os)∧rel s' t' := by
  induction is generalizing s t with
  | nil => exact ⟨s,t,[],rfl,rfl,h⟩
  | cons i is ih =>
    obtain ⟨s1,t1,o,hs,ht,h1⟩ := hstep s t i h
    obtain ⟨s2,t2,os,hs2,ht2,h2⟩ := ih h1
    exact ⟨s2,t2,o::os,by rw [run_cons_ok hs,hs2],by rw [run_cons_ok ht,ht2],h2⟩

variable {inv : σ→Prop}

/-- What every step keeps holds after every run. -/
theorem run_invariant (hstep : ∀ s i t o,inv s → step s i=.ok (t,o) → inv t) {s t : σ}
    (hs : inv s) (h : run step s is=.ok (t,os)) : inv t := by
  induction is generalizing s os with
  | nil =>
    cases h
    exact hs
  | cons i is ih =>
    obtain ⟨m,o,os',hfirst,hrest,_⟩ := run_cons_eq_ok.mp h
    exact ih (hstep s i m o hs hfirst) hrest

/-- Something is true of each step of a run, of its state and its input. -/
def Throughout (step : σ→ι→Except ε (σ×ω)) (p : σ→ι→Prop) : σ→List ι→Prop
  | _,[] => True
  | s,i::is => p s i∧∀ t o,step s i=.ok (t,o) → Throughout step p t is

/-- What is the same at every state with an invariant, which is kept as long as it is
true, is the same throughout the runs from there. -/
theorem throughout_congr {p q : σ→ι→Prop}
    (hstep : ∀ s i t o,inv s → p s i → step s i=.ok (t,o) → inv t)
    (hpq : ∀ s i,inv s → (p s i↔q s i)) (is : List ι) : ∀ {s : σ},inv s →
    (Throughout step p s is↔Throughout step q s is) := by
  induction is with
  | nil => exact fun _ => Iff.rfl
  | cons i is ih =>
    intro s hs
    refine and_congr_right_iff.mpr ?_|>.trans (and_congr_left_iff.mpr fun _ => hpq s i hs)
    intro hp
    refine forall_congr' fun t => forall_congr' fun o => forall_congr' fun hok => ?_
    exact ih (hstep s i t o hs hp hok)

/-- What follows at every state with an invariant, which is kept as long as the condition
is true, follows throughout the runs from there. -/
theorem throughout_imp {p q : σ→ι→Prop}
    (hstep : ∀ s i t o,inv s → p s i → step s i=.ok (t,o) → inv t)
    (hpq : ∀ s i,inv s → p s i → q s i) (is : List ι) : ∀ {s : σ},inv s →
    Throughout step p s is → Throughout step q s is := by
  induction is with
  | nil => exact fun _ _ => trivial
  | cons i is ih =>
    intro s hs h
    exact ⟨hpq s i hs h.1,fun t o hok => ih (hstep s i t o hs h.1 hok) (h.2 t o hok)⟩

/-- What is true throughout a run that begins with a step. -/
theorem throughout_cons {p : σ→ι→Prop} (h : step s i=.ok (t,o)) :
    Throughout step p s (i::is)↔p s i∧Throughout step p t is := by
  refine and_congr_right fun _ => ⟨fun hall => hall t o h,fun hall t' o' h' => ?_⟩
  rw [h] at h'
  cases h'
  exact hall

/-- What is true of each step is true of the one after a part of the run. -/
theorem throughout_at {p : σ→ι→Prop}
    (h : Throughout step p s (is++i::js)) (hrun : run step s is=.ok (t,os)) : p t i := by
  induction is generalizing s os with
  | nil =>
    cases hrun
    exact h.1
  | cons j is ih =>
    obtain ⟨m,o,os',hstep,hrest,_⟩ := run_cons_eq_ok.mp hrun
    exact ih (h.2 m o hstep) hrest

/-! ## Independent parts -/

variable {η ω' : Type}

/-- A machine whose inputs each go to one part and leave the others alone. -/
structure Parts (whole : τ→ι→Except ε (τ×ω)) (part : σ→κ→Except ε (σ×ω')) (η : Type) where
  get : τ→η→σ
  /-- The part that an input goes to. -/
  dest : ι→η
  input : ι→κ
  /-- The output of the part, seen in that of the whole. -/
  view : ω→ω'
  step_ok : ∀ t i s o',part (get t (dest i)) (input i)=.ok (s,o') →
    ∃ t' o,whole t i=.ok (t',o)∧view o=o'∧get t' (dest i)=s∧∀ k,k≠dest i → get t' k=get t k
  step_error : ∀ t i e,part (get t (dest i)) (input i)=.error e → whole t i=.error e

namespace Parts

variable {whole : τ→ι→Except ε (τ×ω)} {part : σ→κ→Except ε (σ×ω')}

variable (P : Parts whole part η)

/-- When all inputs go to one part, the whole runs as that part does. -/
theorem run_of_dest (k : η) (is : List ι) (hdest : ∀ i∈is,P.dest i=k) {s : σ} {os' : List ω'} :
    ∀ t,run part (P.get t k) (is.map P.input)=.ok (s,os') →
      ∃ t' os,run whole t is=.ok (t',os)∧os.map P.view=os'∧P.get t' k=s∧
        ∀ j,j≠k → P.get t' j=P.get t j := by
  induction is generalizing os' with
  | nil =>
    intro t h
    cases h
    exact ⟨t,[],rfl,rfl,rfl,fun _ _ => rfl⟩
  | cons i is ih =>
    intro t h
    have hi := hdest i mem_cons_self
    obtain ⟨m,o',os',hstep,hrest,rfl⟩ := run_cons_eq_ok.mp h
    rw [←hi] at hstep
    obtain ⟨t',o,hwhole,hview,hown,hothers⟩ := P.step_ok t i m o' hstep
    rw [hi] at hown hothers
    rw [←hown] at hrest
    obtain ⟨t'',os,hrun,hviews,hs,hkeep⟩ :=
      ih (fun j hj => hdest j (mem_cons_of_mem _ hj)) t' hrest
    refine ⟨t'',o::os,run_cons_eq_ok.mpr ⟨t',o,os,hwhole,hrun,rfl⟩,?_,hs,fun j hj => ?_⟩
    · rw [map_cons,hview,hviews]
    · rw [hkeep j hj,hothers j hj]

variable [DecidableEq η]

/-- The inputs of one part. -/
def inputsOf (P : Parts whole part η) (k : η) (is : List ι) : List κ :=
  is.filterMap fun i => if P.dest i=k then some (P.input i) else none

/-- An input of the part at hand. -/
theorem inputsOf_cons_self (i : ι) (is : List ι) :
    P.inputsOf (P.dest i) (i::is)=P.input i::P.inputsOf (P.dest i) is := by
  simp only [inputsOf,filterMap_cons,if_true]

variable {k : η}

/-- An input of another part. -/
theorem inputsOf_cons_of_ne {i : ι} (h : k≠P.dest i)
    (is : List ι) : P.inputsOf k (i::is)=P.inputsOf k is := by
  simp only [inputsOf,filterMap_cons,if_neg (Ne.symm h)]

/-- The outputs at the inputs of one part. -/
def outputsOf (P : Parts whole part η) (k : η) (is : List ι) (os : List ω) : List ω :=
  (is.zip os).filterMap fun io => if P.dest io.1=k then some io.2 else none

theorem outputsOf_cons_self (i : ι) (is : List ι) (o : ω) (os : List ω) :
    P.outputsOf (P.dest i) (i::is) (o::os)=o::P.outputsOf (P.dest i) is os := by
  simp only [outputsOf,zip_cons_cons,filterMap_cons,if_true]

/-- The output at an input of another part. -/
theorem outputsOf_cons_of_ne {i : ι} (h : k≠P.dest i) (is : List ι) (o : ω) (os : List ω) :
    P.outputsOf k (i::is) (o::os)=P.outputsOf k is os := by
  simp only [outputsOf,zip_cons_cons,filterMap_cons,if_neg (Ne.symm h)]

/-- When all inputs go to one part, so do all outputs. -/
theorem outputsOf_of_dest (hdest : ∀ i∈is,P.dest i=k) (hlen : is.length=os.length) :
    P.outputsOf k is os=os := by
  induction is generalizing os with
  | nil => exact (length_eq_zero_iff.mp hlen.symm).symm
  | cons i is ih =>
    cases os with
    | nil => cases hlen
    | cons o os =>
      have hi := hdest i mem_cons_self
      have hrest := ih (fun j hj => hdest j (mem_cons_of_mem _ hj)) (Nat.succ.inj hlen)
      rw [←hi,outputsOf_cons_self,hi,hrest]

/-- The whole runs as each part does on its own inputs, whatever comes for the
others. -/
theorem run_part (k : η) : ∀ {t t' : τ} {os : List ω},run whole t is=.ok (t',os) →
      run part (P.get t k) (P.inputsOf k is)=
        .ok (P.get t' k,(P.outputsOf k is os).map P.view) := by
  induction is with
  | nil =>
    intro t t' os h
    cases h
    rfl
  | cons i is ih =>
    intro t t' os h
    obtain ⟨m,o,os',hstep,hrest,rfl⟩ := run_cons_eq_ok.mp h
    have htail := ih hrest
    cases hpart : part (P.get t (P.dest i)) (P.input i) with
    | error e =>
      rw [P.step_error t i e hpart] at hstep
      cases hstep
    | ok r =>
      obtain ⟨s,o'⟩ := r
      obtain ⟨m',o'',hwhole,hview,hown,hothers⟩ := P.step_ok t i s o' hpart
      rw [hwhole] at hstep
      cases hstep
      cases Decidable.em (k=P.dest i) with
      | inl hk =>
        rw [hk,hown] at htail
        rw [hk,inputsOf_cons_self,outputsOf_cons_self,map_cons,hview]
        exact run_cons_eq_ok.mpr ⟨s,o',_,hpart,htail,rfl⟩
      | inr hk =>
        rw [inputsOf_cons_of_ne P hk,outputsOf_cons_of_ne P hk,←hothers k hk]
        exact htail

/-- The whole runs without a fault when every part does on its own inputs. -/
theorem succeeds_iff (is : List ι) :
    ∀ t,Succeeds whole t is↔∀ k,Succeeds part (P.get t k) (P.inputsOf k is) := by
  induction is with
  | nil => exact fun t => ⟨fun _ k => succeeds_nil _,fun _ => succeeds_nil _⟩
  | cons i is ih =>
    intro t
    cases hpart : part (P.get t (P.dest i)) (P.input i) with
    | error e =>
      constructor
      · exact fun h => absurd h (not_succeeds_cons (P.step_error t i e hpart))
      · intro h
        have hown := h (P.dest i)
        rw [inputsOf_cons_self] at hown
        exact absurd hown (not_succeeds_cons hpart)
    | ok r =>
      obtain ⟨s,o'⟩ := r
      obtain ⟨t',o,hwhole,_,hown,hothers⟩ := P.step_ok t i s o' hpart
      rw [succeeds_cons hwhole,ih t']
      refine forall_congr' fun k => ?_
      cases Decidable.em (k=P.dest i) with
      | inl h =>
        rw [h,hown,inputsOf_cons_self,succeeds_cons hpart]
      | inr h => rw [hothers k h,inputsOf_cons_of_ne P h]

end Parts

end MicroPython.InputMachine
