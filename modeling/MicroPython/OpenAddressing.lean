import Mathlib.Data.List.Basic

/-!
# Open addressing

A table is a list of cells, and a key is looked for from the place of its hash on,
cell by cell and around the end. An empty cell ends the search, a deleted one does
not. As long as no key has an empty cell before it on its way, and no two keys are
the same, a search finds a key exactly when it is in the table, a new key goes
into the first cell that is free on its way, and a key that is taken out leaves an
empty cell when the next one is empty.
-/

namespace MicroPython.OpenAddressing

open Nat List

variable {κ : Type}

/-- A cell of a table. -/
inductive Cell (κ : Type) where
  /-- No key was here since the table was made. -/
  | empty
  | deleted
  | full (k : κ)
  deriving DecidableEq

/-- There is a key in a cell. -/
def Cell.isFull : Cell κ→Bool
  | .full _ => true
  | _ => false

/-- Where a search ends. -/
inductive Found where
  | key (pos : ℕ)
  /-- At the end of its way, with the first cell that is free. -/
  | free (pos : ℕ)
  /-- Where it began, with no cell that is free. -/
  | nowhere
  deriving DecidableEq

/-- The cell at a position. -/
def cellAt (cells : List (Cell κ)) (pos : ℕ) : Cell κ := cells.getD pos .empty

/-- The next position, around the end. -/
def next (n pos : ℕ) : ℕ := (pos+1)%n

/-- Where a search ends that is back at its start. -/
def Found.exhausted : Option ℕ→Found
  | none => .nowhere
  | some pos => .free pos

/-- The search among as many cells as `n` says, with the first deleted cell that it saw. -/
def search (matches' : κ→Bool) (cells : List (Cell κ)) (n start : ℕ) : ℕ→ℕ→Option ℕ→Option Found
  | 0,_,_ => none
  | fuel+1,pos,avail =>
    match cellAt cells pos with
    | .empty => some (.free (avail.getD pos))
    | .deleted =>
      let avail := some (avail.getD pos)
      if next n pos=start then some (.exhausted avail)
      else search matches' cells n start fuel (next n pos) avail
    | .full k =>
      if matches' k then some (.key pos)
      else if next n pos=start then some (.exhausted avail)
      else search matches' cells n start fuel (next n pos) avail

/-- What is left of a key that is taken out. -/
def vacated (cells : List (Cell κ)) (n pos : ℕ) : Cell κ :=
  match cellAt cells (next n pos) with
  | .empty => .empty
  | _ => .deleted

/-! ## Ways through a table -/

/-- The position after some steps. -/
def probe (n start i : ℕ) : ℕ := (start+i)%n

variable {n i pos : ℕ}

/-- A position after no steps. -/
theorem probe_zero {start : ℕ} (h : start < n) : probe n start 0=start := mod_eq_of_lt h

/-- A position after one more step. -/
theorem next_probe (n start i : ℕ) : next n (probe n start i)=probe n start (i+1) :=
  mod_add_mod (start+i) n 1

/-- Positions are in the table. -/
theorem probe_lt (hn : 0 < n) (start i : ℕ) : probe n start i < n := mod_lt _ hn

/-- A way is back at its start after as many steps as there are cells, and not before. -/
theorem probe_eq_start {start : ℕ} (hs : start < n) (hi : i < n) :
    probe n start (i+1)=start↔i+1=n := by
  rw [probe]
  cases Nat.lt_or_ge (start+(i+1)) n with
  | inl hlt =>
    rw [mod_eq_of_lt hlt]
    omega
  | inr hge =>
    rw [mod_eq_sub_mod hge,mod_eq_of_lt (by omega)]
    omega

/-- Every position is on the way. -/
theorem exists_probe {start : ℕ} (hs : start < n) (hpos : pos < n) :
    ∃ j,j < n∧probe n start j=pos := by
  cases Nat.lt_or_ge pos start with
  | inl hlt =>
    refine ⟨pos+n-start,by omega,?_⟩
    rw [probe,show start+(pos+n-start)=pos+n by omega,add_mod_right]
    exact mod_eq_of_lt hpos
  | inr hge =>
    refine ⟨pos-start,by omega,?_⟩
    rw [probe,Nat.add_sub_cancel' hge]
    exact mod_eq_of_lt hpos

/-- The cells of the first steps are not empty. -/
def Occupied (cells : List (Cell κ)) (start j : ℕ) : Prop :=
  ∀ i,i < j → cellAt cells (probe cells.length start i)≠.empty

/-- A cell can be reached. -/
def Reached (cells : List (Cell κ)) (start pos : ℕ) : Prop :=
  ∃ j,j < cells.length∧probe cells.length start j=pos∧Occupied cells start j

/-- No key matches as far as a search goes. -/
def NoMatch (matches' : κ→Bool) (cells : List (Cell κ)) (start : ℕ) : Prop :=
  ∀ pos,Reached cells start pos → ∀ k,cellAt cells pos=.full k → matches' k=false

/-- What the end of a search says. -/
def Answers (matches' : κ→Bool) (cells : List (Cell κ)) (start : ℕ) : Found→Prop
  | .key pos => pos < cells.length∧∃ k,cellAt cells pos=.full k∧matches' k=true
  | .free pos => Reached cells start pos∧(cellAt cells pos).isFull=false∧
      NoMatch matches' cells start
  | .nowhere => ∀ pos,pos < cells.length → ∃ k,cellAt cells pos=.full k∧matches' k=false

variable {matches' : κ→Bool} {cells : List (Cell κ)} {start : ℕ}

/-- What was seen in some steps, with the first deleted cell. -/
structure Seen (matches' : κ→Bool) (cells : List (Cell κ)) (start i : ℕ)
    (avail : Option ℕ) : Prop where
  /-- Nothing was empty. -/
  occupied : Occupied cells start i
  noMatch : ∀ j,j < i → ∀ k,cellAt cells (probe cells.length start j)=.full k →
    matches' k=false
  deleted : ∀ pos∈avail,∃ j,j < i∧probe cells.length start j=pos∧cellAt cells pos=.deleted
  keys : avail=none → ∀ j,j < i → ∃ k,cellAt cells (probe cells.length start j)=.full k

/-- Nothing was seen yet. -/
theorem seen_zero (matches' : κ→Bool) (cells : List (Cell κ)) (start : ℕ) :
    Seen matches' cells start 0 none :=
  ⟨fun _ h => absurd h (not_lt_zero _),fun _ h => absurd h (not_lt_zero _),
    (fun _ h => nomatch h),fun _ _ h => absurd h (not_lt_zero _)⟩

variable {avail : Option ℕ} {k : κ}

/-- A deleted cell is seen. -/
theorem seen_deleted (h : Seen matches' cells start i avail)
    (hcell : cellAt cells (probe cells.length start i)=.deleted) :
    Seen matches' cells start (i+1) (some (avail.getD (probe cells.length start i))) := by
  constructor
  · intro j hj
    cases Nat.lt_succ_iff_lt_or_eq.mp hj with
    | inl hlt => exact h.occupied j hlt
    | inr heq =>
      rw [heq,hcell]
      exact fun h => nomatch h
  · intro j hj k hk
    cases Nat.lt_succ_iff_lt_or_eq.mp hj with
    | inl hlt => exact h.noMatch j hlt k hk
    | inr heq =>
      rw [heq,hcell] at hk
      cases hk
  · intro pos hpos
    cases avail with
    | none =>
      cases hpos
      exact ⟨i,lt_succ_self i,rfl,hcell⟩
    | some first =>
      cases hpos
      obtain ⟨j,hj,hat,hdel⟩ := h.deleted first rfl
      exact ⟨j,lt_succ_of_lt hj,hat,hdel⟩
  · exact fun h => nomatch h

/-- A key that does not match is seen. -/
theorem seen_full (h : Seen matches' cells start i avail)
    (hcell : cellAt cells (probe cells.length start i)=.full k) (hk : matches' k=false) :
    Seen matches' cells start (i+1) avail := by
  constructor
  · intro j hj
    cases Nat.lt_succ_iff_lt_or_eq.mp hj with
    | inl hlt => exact h.occupied j hlt
    | inr heq =>
      rw [heq,hcell]
      exact fun h => nomatch h
  · intro j hj l hl
    cases Nat.lt_succ_iff_lt_or_eq.mp hj with
    | inl hlt => exact h.noMatch j hlt l hl
    | inr heq =>
      rw [heq,hcell] at hl
      cases hl
      exact hk
  · intro pos hpos
    obtain ⟨j,hj,hat,hdel⟩ := h.deleted pos hpos
    exact ⟨j,lt_succ_of_lt hj,hat,hdel⟩
  · intro hnone j hj
    cases Nat.lt_succ_iff_lt_or_eq.mp hj with
    | inl hlt => exact h.keys hnone j hlt
    | inr heq => exact ⟨k,heq▸hcell⟩

/-- The search ends at an empty cell. -/
theorem answers_empty (h : Seen matches' cells start i avail)
    (hi : i < cells.length) (hcell : cellAt cells (probe cells.length start i)=.empty) :
    Answers matches' cells start (.free (avail.getD (probe cells.length start i))) := by
  have hno : NoMatch matches' cells start := by
    rintro pos ⟨j,_,rfl,hj⟩ k hk
    cases Nat.lt_or_ge j i with
    | inl hlt => exact h.noMatch j hlt k hk
    | inr hge =>
      cases Nat.lt_or_eq_of_le hge with
      | inl hlt => exact absurd hcell (hj i hlt)
      | inr heq =>
        rw [←heq,hcell] at hk
        cases hk
  cases avail with
  | none =>
    refine ⟨⟨i,hi,rfl,h.occupied⟩,?_,hno⟩
    show (cellAt cells (probe cells.length start i)).isFull=false
    rw [hcell]
    rfl
  | some first =>
    obtain ⟨j,hj,hat,hdel⟩ := h.deleted first rfl
    refine ⟨⟨j,by omega,hat,fun l hl => h.occupied l (by omega)⟩,?_,hno⟩
    show (cellAt cells first).isFull=false
    rw [hdel]
    rfl

/-- The search ends where it began. -/
theorem answers_exhausted (hs : start < cells.length)
    (h : Seen matches' cells start cells.length avail) :
    Answers matches' cells start (.exhausted avail) := by
  cases avail with
  | none =>
    intro pos hpos
    obtain ⟨j,hj,hat⟩ := exists_probe hs hpos
    obtain ⟨k,hk⟩ := h.keys rfl j hj
    rw [hat] at hk
    have hno := h.noMatch j hj k (by rw [hat]; exact hk)
    exact ⟨k,hk,hno⟩
  | some first =>
    obtain ⟨j,hj,hat,hdel⟩ := h.deleted first rfl
    refine ⟨⟨j,hj,hat,fun l hl => h.occupied l (by omega)⟩,?_,?_⟩
    · rw [hdel]
      rfl
    · rintro pos ⟨l,hl,rfl,_⟩ k hk
      exact h.noMatch l hl k hk

/-- A search from the middle of its way ends. -/
theorem search_from (hs : start < cells.length) (fuel : ℕ) : ∀ (i : ℕ) (avail : Option ℕ),
    i+fuel=cells.length → i < cells.length → Seen matches' cells start i avail →
      ∃ r,search matches' cells cells.length start fuel (probe cells.length start i) avail=
        some r∧Answers matches' cells start r := by
  induction fuel with
  | zero => exact fun i avail hsum hi _ => absurd hi (by omega)
  | succ fuel ih =>
    intro i avail hsum hi hseen
    rw [search,next_probe]
    have hpos : probe cells.length start i < cells.length := probe_lt (by omega) start i
    cases hcell : cellAt cells (probe cells.length start i) with
    | empty => exact ⟨_,rfl,answers_empty hseen hi hcell⟩
    | deleted =>
      have hnext := seen_deleted hseen hcell
      cases Decidable.em (probe cells.length start (i+1)=start) with
      | inl hback =>
        have hend := (probe_eq_start hs hi).mp hback
        rw [hend] at hnext
        exact ⟨_,if_pos hback,answers_exhausted hs hnext⟩
      | inr hgo =>
        have hlt := mt (probe_eq_start hs hi).mpr hgo
        simp only [if_neg hgo]
        exact ih (i+1) _ (by omega) (by omega) hnext
    | full k =>
      cases hk : matches' k with
      | true => exact ⟨.key _,if_pos hk,hpos,k,hcell,hk⟩
      | false =>
        have hnext := seen_full hseen hcell hk
        simp only [hk,Bool.false_eq_true,if_false]
        cases Decidable.em (probe cells.length start (i+1)=start) with
        | inl hback =>
          have hend := (probe_eq_start hs hi).mp hback
          rw [hend] at hnext
          exact ⟨_,if_pos hback,answers_exhausted hs hnext⟩
        | inr hgo =>
          have hlt := mt (probe_eq_start hs hi).mpr hgo
          rw [if_neg hgo]
          exact ih (i+1) _ (by omega) (by omega) hnext

/-- A search with as many steps as there are cells ends. -/
theorem search_answers (matches' : κ→Bool) (hs : start < cells.length) :
    ∃ r,search matches' cells cells.length start cells.length start none=some r∧
      Answers matches' cells start r := by
  have h := @search_from κ matches' cells start hs cells.length 0 none (Nat.zero_add _)
    (by omega) (seen_zero matches' cells start)
  rw [probe_zero hs] at h
  exact h

/-! ## Tables -/

/-- Hashes and sameness of keys. Sameness is not asked to be reflexive. -/
structure KeyLaws (hash : κ→ℕ) (same : κ→κ→Bool) : Prop where
  symm : ∀ {a b},same a b=true → same b a=true
  trans : ∀ {a b c},same a b=true → same b c=true → same a c=true
  hash_eq : ∀ {a b},same a b=true → hash a=hash b

variable {hash : κ→ℕ} {same : κ→κ→Bool}

/-- Every key can be reached from the place of its hash, and no two are the same. -/
structure Proper (hash : κ→ℕ) (same : κ→κ→Bool) (cells : List (Cell κ)) : Prop where
  /-- No empty cell is before a key. -/
  reached : ∀ {pos k},cellAt cells pos=.full k → Reached cells (hash k%cells.length) pos
  /-- The same key is at one position. -/
  distinct : ∀ {pos pos' k k'},cellAt cells pos=.full k → cellAt cells pos'=.full k' →
    same k k'=true → pos=pos'

/-- No key of a table is the same as a key. -/
def Absent (same : κ→κ→Bool) (cells : List (Cell κ)) (k : κ) : Prop :=
  ∀ pos k',cellAt cells pos=.full k' → same k' k=false

/-- The number of keys. -/
def count (cells : List (Cell κ)) : ℕ := cells.countP Cell.isFull

theorem cellAt_eq_getElem (h : pos < cells.length) : cellAt cells pos=cells[pos] := by
  rw [cellAt,getD_eq_getElem?_getD,List.getElem?_eq_getElem h]
  rfl

/-- A cell with a key is in the table. -/
theorem lt_of_full (h : cellAt cells pos=.full k) : pos < cells.length := by
  cases Nat.lt_or_ge pos cells.length with
  | inl hlt => exact hlt
  | inr hge =>
    rw [cellAt,getD_eq_getElem?_getD,List.getElem?_eq_none hge] at h
    cases h

theorem cellAt_set_self (h : pos < cells.length) (c : Cell κ) : cellAt (cells.set pos c) pos=c := by
  rw [cellAt,getD_eq_getElem?_getD,List.getElem?_set_self h]
  rfl

theorem cellAt_set_ne {pos' : ℕ} (h : pos≠pos') (c : Cell κ) :
    cellAt (cells.set pos c) pos'=cellAt cells pos' := by
  rw [cellAt,cellAt,getD_eq_getElem?_getD,getD_eq_getElem?_getD,List.getElem?_set_ne h]

theorem Reached.lt (h : Reached cells start pos) : pos < cells.length := by
  obtain ⟨j,hj,hat,_⟩ := h
  rw [←hat]
  exact probe_lt (by omega) start j

/-- What a search does not find is not in the table. -/
theorem absent_of_answers (laws : KeyLaws hash same) (h : Proper hash same cells)
    (hagree : ∀ pos k',cellAt cells pos=.full k' → matches' k'=same k' k) {r : Found}
    (hr : Answers matches' cells (hash k%cells.length) r) (hnot : ∀ pos,r≠.key pos) :
    Absent same cells k := by
  intro pos k' hk'
  rw [←hagree pos k' hk']
  cases r with
  | key pos' => exact absurd rfl (hnot pos')
  | nowhere =>
    obtain ⟨k'',hat,hfalse⟩ := hr pos (lt_of_full hk')
    rw [hk'] at hat
    cases hat
    exact hfalse
  | free pos' =>
    obtain ⟨_,_,hno⟩ := hr
    cases hsame : matches' k' with
    | false => rfl
    | true =>
      have hreach := h.reached hk'
      rw [hagree pos k' hk'] at hsame
      rw [laws.hash_eq hsame] at hreach
      have hfalse := hno pos hreach k' hk'
      rw [hagree pos k' hk',hsame] at hfalse
      cases hfalse

/-- A new table. -/
theorem proper_replicate (hash : κ→ℕ) (same : κ→κ→Bool) (n : ℕ) :
    Proper hash same (List.replicate n .empty) := by
  have hempty : ∀ pos,cellAt (List.replicate n (.empty : Cell κ)) pos=.empty := by
    intro pos
    rw [cellAt,getD_eq_getElem?_getD,List.getElem?_replicate]
    split <;> rfl
  constructor
  · intro pos k hk
    rw [hempty] at hk
    cases hk
  · intro pos pos' k k' hk
    rw [hempty] at hk
    cases hk

/-- A new table has no keys. -/
theorem count_replicate (n : ℕ) : count (List.replicate n (.empty : Cell κ))=0 :=
  countP_replicate.trans (if_neg Bool.false_ne_true)

variable {c : Cell κ}

/-- A way stays occupied when a cell on it gets no empty one. -/
theorem occupied_set {j : ℕ} (hpos : pos < cells.length) (hc : c≠.empty)
    (h : Occupied cells start j) : Occupied (cells.set pos c) start j := by
  intro i hi
  rw [length_set]
  cases Decidable.em (pos=probe cells.length start i) with
  | inl heq =>
    rw [←heq,cellAt_set_self hpos]
    exact hc
  | inr hne =>
    rw [cellAt_set_ne hne]
    exact h i hi

/-- A key is put into a free cell that can be reached. -/
theorem proper_insert (laws : KeyLaws hash same) (h : Proper hash same cells)
    (hreach : Reached cells (hash k%cells.length) pos) (habsent : Absent same cells k) :
    Proper hash same (cells.set pos (.full k)) := by
  have hpos := hreach.lt
  have hkeep : ∀ {start pos'},Reached cells start pos' →
      Reached (cells.set pos (.full k)) start pos' := by
    rintro start pos' ⟨j,hj,hat,hocc⟩
    exact ⟨j,by rw [length_set]; exact hj,by rw [length_set]; exact hat,
      occupied_set hpos (fun h => nomatch h) hocc⟩
  constructor
  · intro pos' k' hk'
    rw [length_set]
    cases Decidable.em (pos=pos') with
    | inl heq =>
      rw [←heq,cellAt_set_self hpos] at hk'
      cases hk'
      rw [←heq]
      exact hkeep hreach
    | inr hne =>
      rw [cellAt_set_ne hne] at hk'
      exact hkeep (h.reached hk')
  · intro p q k1 k2 h1 h2 hsame
    cases Decidable.em (pos=p) with
    | inl hp =>
      rw [←hp,cellAt_set_self hpos] at h1
      cases h1
      cases Decidable.em (pos=q) with
      | inl hq => exact hp.symm.trans hq
      | inr hq =>
        rw [cellAt_set_ne hq] at h2
        have hfalse := habsent q k2 h2
        rw [laws.symm hsame] at hfalse
        cases hfalse
    | inr hp =>
      rw [cellAt_set_ne hp] at h1
      cases Decidable.em (pos=q) with
      | inl hq =>
        rw [←hq,cellAt_set_self hpos] at h2
        cases h2
        have hfalse := habsent p k1 h1
        rw [hsame] at hfalse
        cases hfalse
      | inr hq =>
        rw [cellAt_set_ne hq] at h2
        exact h.distinct h1 h2 hsame

/-- What a cell can be after its key was taken out: empty only when no way goes on behind
it. -/
def Vacates (cells : List (Cell κ)) (pos : ℕ) (c : Cell κ) : Prop :=
  c=.deleted∨c=.empty∧cellAt cells (next cells.length pos)=.empty

/-- What is left of a key that is taken out. -/
theorem vacates_vacated (cells : List (Cell κ)) (pos : ℕ) :
    Vacates cells pos (vacated cells cells.length pos) := by
  rw [vacated]
  split
  case h_1 hnext => exact .inr ⟨rfl,hnext⟩
  case h_2 => exact .inl rfl

/-- There is no key left. -/
theorem Vacates.isFull_eq (h : Vacates cells pos c) : c.isFull=false := by
  cases h with
  | inl hdeleted =>
    rw [hdeleted]
    rfl
  | inr hempty =>
    rw [hempty.1]
    rfl

/-- The keys that are left were there. -/
theorem cellAt_set_full {pos' : ℕ} (hc : c.isFull=false)
    (hk : cellAt (cells.set pos c) pos'=.full k) : pos≠pos'∧cellAt cells pos'=.full k := by
  cases Decidable.em (pos=pos') with
  | inr hne =>
    rw [cellAt_set_ne hne] at hk
    exact ⟨hne,hk⟩
  | inl heq =>
    have hlt := lt_of_full hk
    rw [length_set,←heq] at hlt
    rw [←heq,cellAt_set_self hlt] at hk
    rw [hk] at hc
    cases hc

/-- A key is taken out. -/
theorem proper_remove (h : Proper hash same cells)
    (hk : cellAt cells pos=.full k) (hc : Vacates cells pos c) :
    Proper hash same (cells.set pos c) := by
  have hpos := lt_of_full hk
  constructor
  · intro pos' k' hk'
    obtain ⟨hne,hat'⟩ := cellAt_set_full hc.isFull_eq hk'
    obtain ⟨j,hj,hat,hocc⟩ := h.reached hat'
    rw [length_set]
    refine ⟨j,by rw [length_set]; exact hj,by rw [length_set]; exact hat,?_⟩
    cases hc with
    | inl hdeleted =>
      refine occupied_set hpos ?_ hocc
      rw [hdeleted]
      exact fun h => nomatch h
    | inr hempty =>
      intro i hi
      rw [length_set]
      cases Decidable.em (pos=probe cells.length (hash k'%cells.length) i) with
      | inr hne' =>
        rw [cellAt_set_ne hne']
        exact hocc i hi
      | inl heq =>
        -- the next cell is on the way too, or it is the key itself
        have hnext := hempty.2
        rw [heq,next_probe] at hnext
        cases Nat.lt_or_eq_of_le hi with
        | inl hlt => exact absurd hnext (hocc (i+1) hlt)
        | inr hlast =>
          have hend : probe cells.length (hash k'%cells.length) (i+1)=pos' := by
            rw [←hat,←hlast]
          rw [hend,hat'] at hnext
          cases hnext
  · intro p q k1 k2 h1 h2 hsame
    exact h.distinct (cellAt_set_full hc.isFull_eq h1).2 (cellAt_set_full hc.isFull_eq h2).2 hsame

/-- One key more. -/
theorem count_insert (hpos : pos < cells.length) (hfree : (cellAt cells pos).isFull=false) (k : κ) :
    count (cells.set pos (.full k))=count cells+1 := by
  rw [cellAt_eq_getElem hpos] at hfree
  rw [count,countP_set hpos,hfree]
  rfl

/-- One key less. -/
theorem count_remove (hk : cellAt cells pos=.full k)
    (hc : c.isFull=false) : count (cells.set pos c)+1=count cells := by
  have hpos := lt_of_full hk
  have hone : 0 < count cells := by
    refine countP_pos_iff.mpr ⟨cells[pos],getElem_mem hpos,?_⟩
    rw [←cellAt_eq_getElem hpos,hk]
    rfl
  rw [cellAt_eq_getElem hpos] at hk
  have hset := @countP_set _ Cell.isFull cells pos c hpos
  rw [hk,hc] at hset
  rw [count,hset]
  show count cells-1+0+1=count cells
  omega

/-- A table of which all cells have keys. -/
theorem count_of_nowhere (h : Answers matches' cells start .nowhere) :
    count cells=cells.length := by
  refine countP_eq_length.mpr fun c hc => ?_
  obtain ⟨pos,hpos,hat⟩ := mem_iff_getElem.mp hc
  obtain ⟨k,hk,_⟩ := h pos hpos
  rw [cellAt_eq_getElem hpos] at hk
  rw [←hat,hk]
  rfl

/-! ## The keys of a table -/

/-- The key in a cell. -/
def keyOf : Cell κ→Option κ
  | .full k => some k
  | _ => none

/-- The keys in some cells. -/
def keysOf (cells : List (Cell κ)) : List κ := cells.filterMap keyOf

theorem keyOf_eq_some : keyOf c=some k↔c=.full k := by
  cases c <;> simp [keyOf]

/-- A cell without a key. -/
theorem keyOf_eq_none (h : c.isFull=false) : keyOf c=none := by
  cases c with
  | full k => cases h
  | _ => rfl

/-- The keys that are in some slot. -/
theorem mem_keysOf : k∈keysOf cells↔∃ pos,cellAt cells pos=.full k := by
  simp only [keysOf,mem_filterMap,keyOf_eq_some]
  constructor
  · rintro ⟨c,hc,rfl⟩
    obtain ⟨pos,hlt,hat⟩ := mem_iff_getElem.mp hc
    exact ⟨pos,(cellAt_eq_getElem hlt).trans hat⟩
  · rintro ⟨pos,hat⟩
    have hlt := lt_of_full hat
    exact ⟨_,getElem_mem hlt,(cellAt_eq_getElem hlt).symm.trans hat⟩

theorem length_keysOf (cells : List (Cell κ)) : (keysOf cells).length=count cells := by
  induction cells with
  | nil => rfl
  | cons c cells ih =>
    cases c with
    | full k =>
      rw [count,countP_cons_of_pos rfl]
      exact congrArg (·+1) ih
    | _ =>
      rw [count,countP_cons_of_neg Bool.false_ne_true]
      exact ih

/-- The keys behind a cell that is written. -/
theorem keysOf_set (h : pos < cells.length) (c : Cell κ) :
    (keysOf (cells.set pos c)).Perm
      ((keyOf c).toList++(keysOf (cells.take pos)++keysOf (cells.drop (pos+1)))) := by
  rw [set_eq_take_append_cons_drop,if_pos h,keysOf,filterMap_append]
  cases hc : keyOf c with
  | none =>
    rw [filterMap_cons_none hc]
    rfl
  | some k =>
    rw [filterMap_cons_some hc]
    exact perm_middle

/-- No two slots have the same key exactly when no two keys are the same. -/
theorem distinct_iff (laws : KeyLaws hash same) (cells : List (Cell κ)) :
    (∀ {pos pos' k k'},cellAt cells pos=.full k → cellAt cells pos'=.full k' →
      same k k'=true → pos=pos')↔(keysOf cells).Pairwise fun a b => same a b=false := by
  simp only [keysOf,pairwise_filterMap,keyOf_eq_some]
  constructor
  · intro h
    refine pairwise_iff_getElem.mpr fun i j hi hj hlt k hk k' hk' => ?_
    by_contra hsame
    have heq := h ((cellAt_eq_getElem hi).trans hk) ((cellAt_eq_getElem hj).trans hk')
      (Bool.of_not_eq_false hsame)
    omega
  · intro h pos pos' k k' hk hk' hsame
    have hlt := lt_of_full hk
    have hlt' := lt_of_full hk'
    have hfalse := pairwise_iff_getElem.mp h
    rw [cellAt_eq_getElem hlt] at hk
    rw [cellAt_eq_getElem hlt'] at hk'
    rcases Nat.lt_trichotomy pos pos' with hless | heq | hless
    · rw [hfalse pos pos' hlt hlt' hless k hk k' hk'] at hsame
      cases hsame
    · exact heq
    · have hback := laws.symm hsame
      rw [hfalse pos' pos hlt' hlt hless k' hk' k hk] at hback
      cases hback

/-- No two keys are the same in any order. -/
theorem KeyLaws.pairwise_iff (laws : KeyLaws hash same) {ks ks' : List κ} (h : ks.Perm ks') :
    (ks.Pairwise fun a b => same a b=false)↔ks'.Pairwise fun a b => same a b=false := by
  refine h.pairwise_iff fun {a b} hab => ?_
  cases hba : same b a with
  | false => rfl
  | true =>
    rw [laws.symm hba] at hab
    cases hab

/-- The keys with one that was put into a free slot. -/
theorem keysOf_insert (hpos : pos < cells.length)
    (hfree : (cellAt cells pos).isFull=false) (k : κ) :
    (keysOf (cells.set pos (.full k))).Perm (k::keysOf cells) := by
  have hold := keysOf_set hpos (cellAt cells pos)
  rw [keyOf_eq_none hfree,cellAt_eq_getElem hpos,set_getElem_self] at hold
  exact (keysOf_set hpos (.full k)).trans (hold.symm.cons k)

/-- The keys that are left behind one that is taken out. -/
theorem keysOf_remove (hk : cellAt cells pos=.full k)
    (hc : c.isFull=false) : (keysOf cells).Perm (k::keysOf (cells.set pos c)) := by
  have hpos := lt_of_full hk
  have hold := keysOf_set hpos (.full k)
  have hnew := keysOf_set hpos c
  rw [keyOf_eq_none hc] at hnew
  rw [←hk,cellAt_eq_getElem hpos,set_getElem_self,←cellAt_eq_getElem hpos,hk] at hold
  exact hold.trans (hnew.symm.cons k)

end MicroPython.OpenAddressing
