import Mathlib.Data.List.Basic

/-!
# Runs of code fragments

A program is a list of instructions, some of which only mark a label. A
fragment of it runs until control leaves the fragment or an instruction fails.
Runs of the parts of a fragment compose to runs of the whole.
-/

namespace MicroPython.CodeFragment

open Nat List

/-- What an instruction does to the state `σ`, or to fail with an `ε`. -/
inductive Outcome (σ ε : Type) where
  | next (ip : ℕ) (s : σ)
  | raise (e : ε) (s : σ)

/-- Instructions `ι` over states `σ`. -/
structure Language (ι σ ε : Type) where
  /-- The label that an instruction marks. -/
  labelOf : ι→Option ℕ
  /-- An instruction, with the positions of labels, the position after it and
  the state before it. -/
  step : (ℕ→ℕ)→ι→ℕ→σ→Outcome σ ε

/-- A program with the positions of its labels. -/
structure Program (ι : Type) where
  /-- The instructions. -/
  code : List ι
  /-- Position of each label. -/
  target : ℕ→ℕ

/-- How the run of a fragment ends. -/
inductive End (σ ε : Type) where
  /-- Control leaves the fragment for a position. -/
  | exit (ip : ℕ) (s : σ)
  | raise (e : ε) (s : σ)

variable {ι σ ε : Type}

/-- The fragment stands at position `p` of the program. -/
def Sits (P : Program ι) (p : ℕ) (fragment : List ι) : Prop :=
  ∀ k < fragment.length,P.code[p+k]?=fragment[k]?

/-- Two fragments in a row. -/
theorem sits_append {P : Program ι} {p : ℕ} {a b : List ι} :
    Sits P p (a++b)↔Sits P p a ∧ Sits P (p+a.length) b := by
  constructor
  · intro h
    constructor
    · intro k hk
      rw [h k (by rw [length_append]; omega),List.getElem?_append_left hk]
    · intro k hk
      have hb := h (a.length+k) (by rw [length_append]; omega)
      rw [List.getElem?_append_right (Nat.le_add_right _ _),Nat.add_sub_cancel_left,
        ← Nat.add_assoc] at hb
      exact hb
  · rintro ⟨ha,hb⟩ k hk
    rw [length_append] at hk
    cases Nat.lt_or_ge k a.length with
    | inl h => rw [ha k h,List.getElem?_append_left h]
    | inr h =>
      have hb' := hb (k-a.length) (by omega)
      rw [show p+a.length+(k-a.length)=p+k by omega] at hb'
      rw [hb',List.getElem?_append_right h]

/-- An instruction before a fragment. -/
theorem sits_cons {P : Program ι} {p : ℕ} {i : ι} {b : List ι} :
    Sits P p (i::b)↔P.code[p]?=some i ∧ Sits P (p+1) b := by
  have h := @sits_append _ P p [i] b
  rw [singleton_append] at h
  refine h.trans (and_congr_left fun _ => ?_)
  constructor
  · exact fun h => h 0 Nat.zero_lt_one
  · intro h k hk
    obtain rfl : k=0 := lt_one_iff.mp hk
    exact h

/-- One instruction alone. -/
theorem sits_singleton {P : Program ι} {p : ℕ} {i : ι} : Sits P p [i]↔P.code[p]?=some i := by
  rw [sits_cons]
  exact and_iff_left nofun

section Language

variable (L : Language ι σ ε)

/-- Every marked label has its position. -/
def Consistent (P : Program ι) : Prop :=
  ∀ p i l,P.code[p]?=some i→L.labelOf i=some l→P.target l=p

/-- The run of the instructions between two positions. -/
inductive Runs (P : Program ι) (lo hi : ℕ) : ℕ→σ→End σ ε→Prop where
  | exit {ip : ℕ} (s : σ) (hout : ip < lo ∨ hi ≤ ip) : Runs P lo hi ip s (.exit ip s)
  | step {ip ip' : ℕ} {i : ι} {s s' : σ} {r : End σ ε} (hlo : lo ≤ ip) (hhi : ip < hi)
    (hcode : P.code[ip]?=some i) (hstep : L.step P.target i (ip+1) s=.next ip' s')
    (hrest : Runs P lo hi ip' s' r) : Runs P lo hi ip s r
  | raise {ip : ℕ} {i : ι} {s s' : σ} {e : ε} (hlo : lo ≤ ip) (hhi : ip < hi)
    (hcode : P.code[ip]?=some i) (hstep : L.step P.target i (ip+1) s=.raise e s') :
    Runs P lo hi ip s (.raise e s')

variable {L} {P : Program ι} {lo hi lo' hi' : ℕ}

/-- A run inside a part that leaves it goes on in the whole. -/
theorem Runs.extend {ip ip' : ℕ} {s s' : σ} {r : End σ ε}
    (h : Runs L P lo' hi' ip s (.exit ip' s')) (hlo : lo≤lo') (hhi : hi'≤hi)
    (hrest : Runs L P lo hi ip' s' r) : Runs L P lo hi ip s r := by
  generalize hend : End.exit ip' s'=t at h
  induction h with
  | exit s hout =>
    cases hend
    exact hrest
  | step hlo' hhi' hcode hstep _ ih =>
    exact .step (Nat.le_trans hlo hlo') (Nat.lt_of_lt_of_le hhi' hhi) hcode hstep (ih hend)
  | raise => cases hend

/-- A run inside a part that fails is one of the whole. -/
theorem Runs.raise_in {ip : ℕ} {s s' : σ} {e : ε}
    (h : Runs L P lo' hi' ip s (.raise e s')) (hlo : lo≤lo') (hhi : hi'≤hi) :
    Runs L P lo hi ip s (.raise e s') := by
  generalize hend : End.raise e s'=t at h
  induction h with
  | exit => cases hend
  | step hlo' hhi' hcode hstep _ ih =>
    exact .step (Nat.le_trans hlo hlo') (Nat.lt_of_lt_of_le hhi' hhi) hcode hstep (ih hend)
  | raise hlo' hhi' hcode hstep =>
    cases hend
    exact .raise (Nat.le_trans hlo hlo') (Nat.lt_of_lt_of_le hhi' hhi) hcode hstep

/-- A fragment runs in one way only. -/
theorem Runs.unique {ip : ℕ} {s : σ} {r r' : End σ ε} (h : Runs L P lo hi ip s r)
    (h' : Runs L P lo hi ip s r') : r=r' := by
  induction h with
  | exit s hout =>
    cases h' with
    | exit => rfl
    | step hlo hhi => omega
    | raise hlo hhi => omega
  | step hlo hhi hcode hstep _ ih =>
    cases h' with
    | exit s hout => omega
    | step _ _ hcode' hstep' hrest' =>
      cases hcode.symm.trans hcode'
      cases hstep.symm.trans hstep'
      exact ih hrest'
    | raise _ _ hcode' hstep' =>
      cases hcode.symm.trans hcode'
      cases hstep.symm.trans hstep'
  | raise hlo hhi hcode hstep =>
    cases h' with
    | exit s hout => omega
    | step _ _ hcode' hstep' =>
      cases hcode.symm.trans hcode'
      cases hstep.symm.trans hstep'
    | raise _ _ hcode' hstep' =>
      cases hcode.symm.trans hcode'
      cases hstep.symm.trans hstep'
      rfl

/-- The labels that a fragment marks, in order. -/
def labels (L : Language ι σ ε) (fragment : List ι) : List ℕ := fragment.filterMap L.labelOf

theorem mem_labels {fragment : List ι} {l : ℕ} :
    l∈labels L fragment↔∃ i∈fragment,L.labelOf i=some l := mem_filterMap

/-- The position of each label in a program, or the end for other ones. -/
def labelOffsets (L : Language ι σ ε) (code : List ι) (l : ℕ) : ℕ :=
  code.findIdx fun i => decide (L.labelOf i=some l)

theorem labelOffsets_absent {code : List ι} {l : ℕ} (h : l∉labels L code) :
    labelOffsets L code l=code.length :=
  findIdx_eq_length.mpr fun i hi => decide_eq_false fun hl => h (mem_labels.mpr ⟨i,hi,hl⟩)

/-- A label that is marked once has the position of its mark. -/
theorem labelOffsets_marked {code : List ι} (hnodup : (labels L code).Nodup) {p l : ℕ} {i : ι}
    (hcode : code[p]?=some i) (hl : L.labelOf i=some l) : labelOffsets L code l=p := by
  induction code generalizing p with
  | nil => cases hcode
  | cons j code ih =>
    rw [labelOffsets,findIdx_cons]
    cases p with
    | zero =>
      cases hcode
      rw [decide_eq_true hl]
      rfl
    | succ p =>
      rw [List.getElem?_cons_succ] at hcode
      have hmem : l∈labels L code := mem_labels.mpr ⟨i,mem_of_getElem? hcode,hl⟩
      have hj : L.labelOf j≠some l := by
        intro hj
        rw [labels,filterMap_cons_some hj,nodup_cons] at hnodup
        exact hnodup.1 hmem
      have hrest : (labels L code).Nodup := by
        cases hj' : L.labelOf j with
        | none =>
          rw [labels,filterMap_cons_none hj'] at hnodup
          exact hnodup
        | some l' =>
          rw [labels,filterMap_cons_some hj',nodup_cons] at hnodup
          exact hnodup.2
      rw [decide_eq_false hj]
      exact congrArg (·+1) (ih hrest hcode)

theorem consistent_labelOffsets {code : List ι} (hnodup : (labels L code).Nodup) :
    Consistent L ⟨code,labelOffsets L code⟩ :=
  fun _ _ _ hcode hl => labelOffsets_marked hnodup hcode hl

end Language

end MicroPython.CodeFragment
