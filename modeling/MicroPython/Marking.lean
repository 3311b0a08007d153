import Mathlib.Data.List.Basic

/-!
# Marking with a bounded stack

What is reachable in a graph is marked with a stack that may be full. A node that does
not fit is marked all the same and a flag is set, and then every node is visited again.
A marking makes progress as long as every marked node is on the stack, to be visited
again or has its successors marked, unless the flag is set. Each rule is about one
action, and at the end the nodes marked are those that are reachable.
-/

namespace MicroPython.Marking

open List

variable {α : Type}

/-- A graph with roots. -/
structure Graph (α : Type) where
  /-- The nodes to start from. -/
  root : α→Prop
  /-- The successors of a node. -/
  edge : α→α→Prop

/-- There is a path from a root. -/
inductive Reachable (g : Graph α) : α→Prop where
  | root {x : α} (h : g.root x) : Reachable g x
  | edge {x y : α} (hx : Reachable g x) (h : g.edge x y) : Reachable g y

/-- What a marking keeps: the nodes marked, those on the stack, the flag and the nodes
that are visited later. -/
structure Progress (g : Graph α) (marked : α→Prop) (stack : List α) (overflow : Bool)
    (later : α→Prop) : Prop where
  sound : ∀ x,marked x → Reachable g x
  onStack : ∀ x∈stack,marked x
  /-- What is marked is not forgotten. -/
  covered : overflow=true∨∀ x,marked x → x∈stack∨later x∨∀ y,g.edge x y → marked y

variable {g : Graph α} {marked marked' later later' : α→Prop} {stack : List α}
variable {overflow : Bool} {x y : α}

section

variable (h : Progress g marked stack overflow later) (hy : Reachable g y)
include h hy

/-- A node that gets marked is put on the stack. -/
theorem Progress.push
    (hmarked : ∀ z,marked' z↔marked z∨z=y) :
    Progress g marked' (y::stack) overflow later := by
  refine ⟨?_,?_,?_⟩
  · intro z hz
    cases (hmarked z).mp hz with
    | inl hold => exact h.sound z hold
    | inr hnew => exact hnew ▸ hy
  · intro z hz
    cases mem_cons.mp hz with
    | inl hnew => exact (hmarked z).mpr (.inr hnew)
    | inr hold => exact (hmarked z).mpr (.inl (h.onStack z hold))
  · refine h.covered.imp id fun hcovered z hz => ?_
    cases (hmarked z).mp hz with
    | inr hnew => exact .inl (hnew ▸ mem_cons_self)
    | inl hold =>
      rcases hcovered z hold with hstack | hlater | hedges
      · exact .inl (mem_cons_of_mem _ hstack)
      · exact .inr (.inl hlater)
      · exact .inr (.inr fun w hw => (hmarked w).mpr (.inl (hedges w hw)))

/-- A node that gets marked does not fit on the stack. -/
theorem Progress.overflows
    (hmarked : ∀ z,marked' z↔marked z∨z=y) : Progress g marked' stack true later := by
  refine ⟨?_,?_,.inl rfl⟩
  · intro z hz
    cases (hmarked z).mp hz with
    | inl hold => exact h.sound z hold
    | inr hnew => exact hnew ▸ hy
  · exact fun z hz => (hmarked z).mpr (.inl (h.onStack z hz))

/-- A node without successors needs no place on the stack. -/
theorem Progress.leaf
    (hleaf : ∀ z,¬g.edge y z) (hmarked : ∀ z,marked' z↔marked z∨z=y) :
    Progress g marked' stack overflow later := by
  refine ⟨?_,?_,?_⟩
  · exact (h.overflows hy hmarked).sound
  · exact (h.overflows hy hmarked).onStack
  · refine h.covered.imp id fun hcovered z hz => ?_
    cases (hmarked z).mp hz with
    | inr hnew => exact .inr (.inr fun w hw => absurd (hnew ▸ hw) (hleaf w))
    | inl hold =>
      rcases hcovered z hold with hstack | hlater | hedges
      · exact .inl hstack
      · exact .inr (.inl hlater)
      · exact .inr (.inr fun w hw => (hmarked w).mpr (.inl (hedges w hw)))

end

/-- A node is taken from the stack, and is visited before the others. -/
theorem Progress.pop (h : Progress g marked (x::stack) overflow later) :
    Progress g marked stack overflow fun z => later z∨z=x := by
  refine ⟨h.sound,fun z hz => h.onStack z (mem_cons_of_mem _ hz),?_⟩
  refine h.covered.imp id fun hcovered z hz => ?_
  rcases hcovered z hz with hstack | hlater | hedges
  · cases mem_cons.mp hstack with
    | inl htop => exact .inr (.inl (.inr htop))
    | inr hrest => exact .inl hrest
  · exact .inr (.inl (.inl hlater))
  · exact .inr (.inr hedges)

theorem Progress.settle (h : Progress g marked stack overflow later)
    (hlater : ∀ z,marked z → later z → later' z∨∀ y,g.edge z y → marked y) :
    Progress g marked stack overflow later' := by
  refine ⟨h.sound,h.onStack,h.covered.imp id fun hcovered z hz => ?_⟩
  rcases hcovered z hz with hstack | hlate | hedges
  · exact .inl hstack
  · exact .inr (hlater z hz hlate)
  · exact .inr (.inr hedges)

theorem Progress.close (h : Progress g marked stack overflow fun z => later z∨z=x)
    (hedges : ∀ y,g.edge x y → marked y) : Progress g marked stack overflow later :=
  h.settle fun z _ hlate => hlate.imp id fun hsame : z=x => hsame ▸ hedges

/-- A marked node is put on the stack instead of being visited later. -/
theorem Progress.visit (h : Progress g marked stack overflow later) (hx : marked x)
    (hlater : ∀ z,later z → later' z∨z=x) :
    Progress g marked (x::stack) overflow later' := by
  refine ⟨h.sound,?_,h.covered.imp id fun hcovered z hz => ?_⟩
  · intro z hz
    cases mem_cons.mp hz with
    | inl htop => exact htop ▸ hx
    | inr hrest => exact h.onStack z hrest
  · rcases hcovered z hz with hstack | hlate | hedges
    · exact .inl (mem_cons_of_mem _ hstack)
    · cases hlater z hlate with
      | inl hlate' => exact .inr (.inl hlate')
      | inr hsame => exact .inl (hsame ▸ mem_cons_self)
    · exact .inr (.inr hedges)

/-- All nodes are to be visited again. -/
theorem Progress.restart (h : Progress g marked stack overflow later)
    (hlater : ∀ z,marked z → later' z) : Progress g marked [] false later' :=
  ⟨h.sound,fun _ hz => absurd hz not_mem_nil,.inr fun z hz => .inr (.inl (hlater z hz))⟩

/-- At the end the nodes marked are those that are reachable. -/
theorem Progress.complete (h : Progress g marked [] false fun _ => False)
    (hroots : ∀ x,g.root x → marked x) (x : α) : marked x↔Reachable g x := by
  refine ⟨h.sound x,fun hx => ?_⟩
  have hclosed : ∀ z,marked z → ∀ w,g.edge z w → marked w := by
    intro z hz
    rcases h.covered with hflag | hcovered
    · cases hflag
    · rcases hcovered z hz with hstack | hlater | hedges
      · exact absurd hstack not_mem_nil
      · exact absurd hlater id
      · exact hedges
  induction hx with
  | root hroot => exact hroots _ hroot
  | edge _ hedge ih => exact hclosed _ ih _ hedge

end MicroPython.Marking
