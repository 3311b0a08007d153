import Mathlib.Data.Nat.Init

/-!
# The latest values in a ring of cells

Values are written to the cells of a ring one after the other. The cells hold the latest of
them, as many as there are cells, each at a place that its number gives.
-/

namespace MicroPython.RingHistory

open Nat

variable {α : Type} {cells log : List α}

/-- The place of a value among `n` in a ring of cells, counted from the latest. -/
def place (cap n i : ℕ) : ℕ := (n-1-i)%cap

/-- The cells hold the latest values of a log, which has the latest first. -/
def Holds (cells log : List α) : Prop :=
  ∀ i,i < log.length → i < cells.length → cells[place cells.length log.length i]?=log[i]?

/-- No values are held anywhere. -/
theorem holds_nil (cells : List α) : Holds cells [] :=
  fun _ h => absurd h (not_lt_zero _)

theorem mod_ne_of_lt {cap m k : ℕ} (hpos : 0 < k) (hlt : k < cap) : m%cap≠(m+k)%cap := by
  intro heq
  have hzero := sub_mod_eq_zero_of_mod_eq heq.symm
  rw [Nat.add_sub_cancel_left,Nat.mod_eq_of_lt hlt] at hzero
  omega

/-- The next value goes to the place that its number gives. -/
theorem holds_push (h : Holds cells log) (a : α) :
    Holds (cells.set (log.length%cells.length) a) (a::log) := by
  intro i hi hcap
  rw [List.length_set] at hcap
  rw [List.length_set,List.length_cons,place,Nat.add_sub_cancel]
  rw [List.length_cons] at hi
  cases i with
  | zero =>
    rw [Nat.sub_zero,List.getElem?_set_self (mod_lt _ hcap)]
    rfl
  | succ i =>
    have hne := @mod_ne_of_lt cells.length (log.length-(i+1)) (i+1) (succ_pos i) hcap
    rw [Nat.sub_add_cancel (by omega)] at hne
    have hold := h i (by omega) (by omega)
    rw [place,Nat.sub_sub,Nat.add_comm 1] at hold
    rw [List.getElem?_set_ne (Ne.symm hne),hold]
    rfl

/-- One value before another is one place before it, around the ring. -/
theorem place_succ {cap n i : ℕ} (hcap : 0 < cap) (hi : i+1 < n) :
    place cap n (i+1)=if place cap n i=0 then cap-1 else place cap n i-1 := by
  obtain ⟨m,hm⟩ : ∃ m,n-1-(i+1)=m := ⟨_,rfl⟩
  have hnext : n-1-i=m+1 := by omega
  have hlt := mod_lt m hcap
  rw [place,place,hm,hnext,add_mod]
  cases Decidable.em (m%cap+1=cap) with
  | inl hlast =>
    have hone : (m%cap+1%cap)%cap=0 := by
      rw [add_mod_mod,hlast,mod_self]
    rw [if_pos hone]
    omega
  | inr hinner =>
    have hone : (m%cap+1%cap)%cap=m%cap+1 := by
      rw [add_mod_mod,Nat.mod_eq_of_lt (by omega)]
    rw [hone,if_neg (Nat.succ_ne_zero _),Nat.add_sub_cancel]

/-- The latest value is one place before that of the next. -/
theorem place_zero {cap n : ℕ} (hcap : 0 < cap) (hn : 0 < n) :
    place cap n 0=if n%cap=0 then cap-1 else n%cap-1 := by
  have hsucc := @place_succ cap (n+1) 0 hcap (by omega)
  rw [place,place,Nat.add_sub_cancel,Nat.sub_zero] at hsucc
  rw [place,Nat.sub_zero]
  exact hsucc

end MicroPython.RingHistory
