import Mathlib.Data.List.Basic

/-!
# Areas of memory

An area is a list of cells. Cells are written in a row, and not beyond the end of
the area. An area can be made larger, with cells of any content.
-/

namespace MicroPython.MemoryArea

open List

variable {α : Type}

/-- Cells in a row from a position on get new values, when all of them are in the
area. -/
def store (mem : List α) (pos : ℕ) (xs : List α) : Option (List α) :=
  if xs=[]∨pos+xs.length ≤ mem.length then
    some (mem.take pos++xs++mem.drop (pos+xs.length))
  else none

/-- An area of another size with the same first cells. -/
def resize (mem : List α) (n : ℕ) (garbage : ℕ→α) : List α :=
  mem.take n++(List.range (n-mem.length)).map garbage

variable {xs mem : List α}

variable {pos k : ℕ}

/-- Cells within the area are written. -/
theorem store_ok (h : pos+xs.length ≤ mem.length) :
    store mem pos xs=some (mem.take pos++xs++mem.drop (pos+xs.length)) :=
  if_pos (.inr h)

/-- Writing no cells changes nothing. -/
theorem store_nil (mem : List α) (pos : ℕ) : store mem pos []=some mem := by
  rw [store,if_pos (.inl rfl),append_nil]
  exact congrArg some (take_append_drop pos mem)

/-- Cells outside the area are not written. -/
theorem store_fault (hxs : xs≠[]) (h : mem.length < pos+xs.length) : store mem pos xs=none := by
  refine if_neg ?_
  rintro (hnil | hle)
  · exact hxs hnil
  · omega

/-- The size of an area with cells written. -/
theorem length_splice (h : pos+xs.length ≤ mem.length) :
    (mem.take pos++xs++mem.drop (pos+xs.length)).length=mem.length := by
  rw [length_append,length_append,length_take,length_drop]
  omega

/-- The size of an area that was written to. -/
theorem length_store {mem' : List α} (h : store mem pos xs=some mem') : mem'.length=mem.length := by
  rw [store] at h
  split at h
  case isFalse => cases h
  case isTrue hfits =>
    cases h
    cases hfits with
    | inl hnil =>
      rw [hnil,append_nil]
      exact congrArg List.length (take_append_drop pos mem)
    | inr hle => exact length_splice hle

/-- The cells up to the end of those written. -/
theorem take_splice (h : pos+xs.length ≤ mem.length) :
    (mem.take pos++xs++mem.drop (pos+xs.length)).take (pos+xs.length)=mem.take pos++xs := by
  refine take_left' ?_
  rw [length_append,length_take]
  omega

/-- The cells before those written. -/
theorem take_splice_of_le (h : pos+xs.length ≤ mem.length) (hk : k≤pos) :
    (mem.take pos++xs++mem.drop (pos+xs.length)).take k=mem.take k := by
  have hlen : k≤(mem.take pos).length := by
    rw [length_take]
    omega
  rw [append_assoc,take_append_of_le_length hlen,take_take,Nat.min_eq_left hk]

/-- Writing what is there changes nothing. -/
theorem store_self (hpos : pos≤k) (hk : k ≤ mem.length) :
    store mem pos ((mem.take k).drop pos)=some mem := by
  have hlength : ((mem.take k).drop pos).length=k-pos := by
    rw [length_drop,length_take]
    omega
  have hfront : mem.take pos++(mem.take k).drop pos=mem.take k := by
    have hall := take_append_drop pos (mem.take k)
    rw [take_take,Nat.min_eq_left hpos] at hall
    exact hall
  rw [store_ok (by omega),hlength,Nat.add_sub_of_le hpos,hfront,take_append_drop]

/-- The size of a larger area. -/
theorem length_resize {n : ℕ} (h : mem.length≤n) (garbage : ℕ→α) :
    (resize mem n garbage).length=n := by
  rw [resize,length_append,length_take,length_map,length_range]
  omega

/-- The first cells of a larger area. -/
theorem take_resize {n : ℕ} (h : mem.length≤n) (hk : k ≤ mem.length)
    (garbage : ℕ→α) : (resize mem n garbage).take k=mem.take k := by
  rw [resize,take_of_length_le h,take_append_of_le_length hk]

end MicroPython.MemoryArea
