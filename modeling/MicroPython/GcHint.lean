import MicroPython.GcRealloc

/-!
# The hint for the next free block

The search of an allocation starts at the byte of the allocation table that
`gc_last_free_atb_index` names. An allocation of one block moves it up, to where the search
ended, and whatever frees blocks moves it down to them.
-/

namespace MicroPython.GcHint

open Nat GcHeap GcAlloc GcTable GcRealloc

/-- No block is free in the bytes of the allocation table before the hint. -/
def HintSafe (s : Heap) : Prop :=
  ∀ b<s.pool.blocks,b/blocksPerAtb<s.lastFreeAtbIndex → s.table b≠.free

/-- The heaps that calls leave, from `gc_init` on. -/
inductive Reached (r : Region) : Heap→Prop where
  /-- `gc_init` -/
  | init : Reached r (gcInit r)
  /-- `gc_alloc` -/
  | alloc {s t : Heap} {out : Report} {nBytes : ℕ} {hasFinaliser : Bool} {first retry : Memory}
      (h : Reached r s) (hstep : gcAlloc s nBytes hasFinaliser first retry=.ok (t,out)) :
      Reached r t
  /-- `gc_free` -/
  | free {s t : Heap} {behind : List Kind} {ptr : ℕ} (h : Reached r s)
      (hstep : gcFreeThrough s behind ptr=.ok t) : Reached r t
  /-- `gc_realloc` -/
  | realloc {s t : Heap} {out : Report} {bytes bytes' : Bytes} {ptr nBytes : ℕ}
      {allowMove : Bool} {o : Outside} (h : Reached r s)
      (hstep : gcReallocBytes s bytes ptr nBytes allowMove o=.ok (t,out,bytes')) : Reached r t
  /-- `gc_collect` -/
  | collect {s t : Heap} {outside : Bool} {e : Memory} (h : Reached r s)
      (hstep : gcCollect s e=.ok (t,outside)) : Reached r t
  /-- `gc_lock`, `gc_unlock`, `gc_enable`, `gc_disable` and `gc_threshold` -/
  | settings {s : Heap} (lockDepth : UInt16) (autoCollectEnabled : Bool) (allocThreshold : ℕ)
      (h : Reached r s) : Reached r {s with
        lockDepth := lockDepth
        autoCollectEnabled := autoCollectEnabled
        allocThreshold := allocThreshold}

variable {s t u : Heap}

/-- A step keeps the hint safe when it moves it up only past blocks that are taken, and when the
blocks that it frees are behind it. -/
theorem HintSafe.of_free (h : HintSafe s) (hpool : t.pool=s.pool)
    (hfree : ∀ b<s.pool.blocks,b/blocksPerAtb<t.lastFreeAtbIndex → t.table b=.free →
      b/blocksPerAtb<s.lastFreeAtbIndex∧s.table b=.free) : HintSafe t := by
  intro b hb hbefore hnow
  rw [hpool] at hb
  obtain ⟨hhint,hthen⟩ := hfree b hb hbefore hnow
  exact h b hb hhint hthen

theorem HintSafe.lower (h : HintSafe s) {block : ℕ} (hpool : t.pool=s.pool)
    (hhint : t.lastFreeAtbIndex=Heap.lowerHint s block)
    (hfree : ∀ b,t.table b=.free → s.table b=.free∨block ≤ b) : HintSafe t := by
  refine h.of_free hpool fun b _ hbefore hnow => ?_
  rw [hhint,Heap.lowerHint] at hbefore
  rcases hfree b hnow with hthen | hge
  · refine ⟨?_,hthen⟩
    split at hbefore <;> omega
  · have hle : block/blocksPerAtb ≤ b/blocksPerAtb := Nat.div_le_div_right hge
    split at hbefore <;> omega

theorem collect_safe {outside : Bool} {e : Memory} (h : gcCollect s e=.ok (t,outside)) :
    HintSafe t := by
  intro b _ hbefore
  rw [gcCollect_hint h] at hbefore
  exact absurd hbefore (Nat.not_lt_zero _)

/-- A search for one block passes none that is free. -/
theorem scanTable_first {table : ℕ→Kind} {nBlocks j k : ℕ} (n : ℕ) : ∀ {i nFree : ℕ},
    scanTable table nBlocks n i nFree=.found j k →
      nBlocks ≤ k∧i ≤ j∧j < i+n∧(nBlocks ≤ 1 → ∀ b,i ≤ b → b<j → table b≠.free) := by
  induction n with
  | zero => exact fun h => Scan.noConfusion h
  | succ n ih =>
    intro i nFree h
    rw [scanTable] at h
    split_ifs at h with hfree henough
    · cases h
      exact ⟨henough,Nat.le_refl _,by omega,fun _ b hb hlt => absurd hb (by omega)⟩
    · obtain ⟨hcount,hfrom,hinside,_⟩ := ih h
      exact ⟨hcount,by omega,by omega,fun hone => absurd hone (by omega)⟩
    · obtain ⟨hcount,hfrom,hinside,hpassed⟩ := ih h
      refine ⟨hcount,by omega,by omega,fun hone b hb hlt => ?_⟩
      rcases Nat.eq_or_lt_of_le hb with rfl | hgt
      · exact hfree
      · exact hpassed hone b hgt hlt

/-- What is taken is not free. -/
theorem or_ne_free (k : Kind) : k.or .head≠.free∧k.or .tail≠.free := by
  cases k <;> decide

/-- Blocks are taken where a scan found them. -/
theorem take_safe (h : HintSafe s) {nBlocks nFree i k ptr : ℕ} {hasFinaliser : Bool}
    (hfound : scanHeap s nBlocks nFree=.found i k)
    (htake : take s nBlocks i k hasFinaliser=.ok (t,ptr)) : HintSafe t := by
  obtain ⟨hcount,hfrom,hinside,hpassed⟩ := scanTable_first _ hfound
  have hshort : s.pool.blocks<2^26 := s.pool.short
  rw [take] at htake
  split at htake
  case isFalse => cases htake
  case isTrue hstart =>
    cases htake
    refine h.of_free rfl fun b hb hbefore hnow => ?_
    have hthen : b≠(i+sizeT-k+1)%sizeT∧s.table b=.free := by
      dsimp only at hnow
      rw [changeBlocks_apply] at hnow
      by_cases heq : b=(i+sizeT-k+1)%sizeT
      · rw [if_neg (by omega),heq,Function.update_self] at hnow
        exact absurd hnow (or_ne_free _).1
      · rw [Function.update_of_ne heq] at hnow
        split at hnow
        · exact absurd hnow (or_ne_free _).2
        · exact ⟨heq,hnow⟩
    refine ⟨?_,hthen.2⟩
    dsimp only at hbefore
    split at hbefore
    case isFalse => exact hbefore
    case isTrue hone =>
      -- One block was looked for, so that all before it are taken.
      subst hone
      have hself : (i+sizeT-1+1)%sizeT=i := by
        rw [show sizeT=2^32 from rfl]
        omega
      by_contra hbehind
      rw [hself] at hthen
      simp only [blocksPerAtb] at *
      exact hpassed hcount b (by omega) (by omega) hthen.2

/-- The search leaves the hint safe, and what it found was found from the hint on. -/
theorem search_safe (h : HintSafe s) {nBlocks : ℕ} {first retry : Memory} {outside : Bool}
    {found : Option (ℕ×ℕ)} (hsearch : search s nBlocks first retry=.ok (t,outside,found)) :
    HintSafe t∧∀ i k,found=some (i,k) → ∃ nFree,scanHeap t nBlocks nFree=.found i k := by
  rw [search] at hsearch
  cases hthreshold : thresholdCollect s first with
  | error e => rw [hthreshold] at hsearch; cases hsearch
  | ok result =>
    obtain ⟨s1,o1⟩ := result
    have h1 : HintSafe s1 := by
      rw [thresholdCollect] at hthreshold
      split at hthreshold
      · exact collect_safe hthreshold
      · cases hthreshold
        exact h
    rw [hthreshold] at hsearch
    dsimp only at hsearch
    split at hsearch
    case h_1 i k hscan =>
      cases hsearch
      exact ⟨h1,fun i k heq => by cases heq; exact ⟨0,hscan⟩⟩
    case h_2 nFree hscan =>
      split at hsearch
      case isFalse =>
        cases hsearch
        exact ⟨h1,fun i k heq => by cases heq⟩
      case isTrue =>
        split at hsearch
        case h_1 => cases hsearch
        case h_2 s2 o2 hcollect =>
          split at hsearch <;> cases hsearch
          case h_1 hscan =>
            exact ⟨collect_safe hcollect,fun i k heq => by cases heq; exact ⟨nFree,hscan⟩⟩
          case h_2 => exact ⟨collect_safe hcollect,fun i k heq => by cases heq⟩

/-- `gc_alloc` keeps the hint safe. -/
theorem alloc_safe (h : HintSafe s) {out : Report} {nBytes : ℕ} {hasFinaliser : Bool}
    {first retry : Memory} (hstep : gcAlloc s nBytes hasFinaliser first retry=.ok (t,out)) :
    HintSafe t := by
  rw [gcAlloc] at hstep
  split_ifs at hstep with hzero hlock
  · cases hstep; exact h
  · cases hstep; exact h
  · cases hsearch : search s (numBlocks nBytes) first retry with
    | error e => rw [hsearch] at hstep; cases hstep
    | ok result =>
      obtain ⟨s1,o1,_ | ⟨i,k⟩⟩ := result <;> rw [hsearch] at hstep
      · cases hstep
        exact (search_safe h hsearch).1
      · obtain ⟨h1,hfound⟩ := search_safe h hsearch
        obtain ⟨nFree,hscan⟩ := hfound i k rfl
        have htaken : report s1 o1 (take s1 (numBlocks nBytes) i k hasFinaliser)=
            .ok (t,out) := hstep
        cases htake : take s1 (numBlocks nBytes) i k hasFinaliser with
        | error e => rw [htake] at htaken; cases htaken
        | ok taken =>
          rw [htake] at htaken
          cases htaken
          exact take_safe h1 hscan htake

/-- The loop of `gc_free` frees no block before the one it starts at. -/
theorem freeLoop_frees {p : Pool} {behind : List Kind} (n : ℕ) : ∀ {block : ℕ}
    {tables tables' : (ℕ→Kind)×(ℕ→Bool)},freeLoop p behind n block tables=.ok tables' →
      ∀ b,tables'.1 b=.free → tables.1 b=.free∨block ≤ b := by
  induction n with
  | zero => exact fun h => by cases h
  | succ n ih =>
    intro block tables tables' h b hb
    rw [freeLoop] at h
    split at h
    case h_1 => cases h
    case h_2 next hnext =>
      have hstep : next.1 b=.free → tables.1 b=.free∨block ≤ b := by
        rw [atbAnyToFree] at hnext
        split_ifs at hnext <;> cases hnext
        · by_cases heq : b=block
          · exact fun _ => .inr (Nat.le_of_eq heq.symm)
          · exact fun hfree => .inl ((Function.update_of_ne heq _ _).symm.trans hfree)
        · exact .inl
      split at h
      case isTrue =>
        rcases ih h b hb with hfree | hle
        · exact hstep hfree
        · exact .inr (by omega)
      case isFalse => cases h; exact hstep hb

/-- `gc_free` keeps the hint safe. -/
theorem free_safe (h : HintSafe s) {behind : List Kind} {ptr : ℕ}
    (hstep : gcFreeThrough s behind ptr=.ok t) : HintSafe t := by
  rw [gcFreeThrough] at hstep
  split_ifs at hstep with hlock hnull his
  · cases hstep; exact h
  · cases hstep; exact h
  · dsimp only at hstep
    split at hstep <;> cases hstep
    case h_2 tables hloop => exact h.lower rfl rfl (freeLoop_frees _ hloop)

/-- The loop that makes a chunk larger frees no block. -/
theorem growTail_frees {blocks : ℕ} (n : ℕ) : ∀ {bl : ℕ} {table table' : ℕ→Kind},
    growTail blocks n bl table=.ok table' → ∀ b,table' b=.free → table b=.free := by
  induction n with
  | zero => exact fun h b hb => by cases h; exact hb
  | succ n ih =>
    intro bl table table' h b hb
    rw [growTail] at h
    split at h <;> try cases h
    by_cases heq : b=bl
    · have hfree := ih h b hb
      rw [heq,Function.update_self] at hfree
      exact absurd hfree (or_ne_free _).2
    · exact (Function.update_of_ne heq _ _).symm.trans (ih h b hb)

/-- `gc_realloc` keeps the hint safe. -/
theorem realloc_safe (h : HintSafe s) {out : Report} {bytes bytes' : Bytes} {ptr nBytes : ℕ}
    {allowMove : Bool} {o : Outside}
    (hstep : gcReallocBytes s bytes ptr nBytes allowMove o=.ok (t,out,bytes')) :
    HintSafe t := by
  have halloc : ∀ {bytes n hasFinaliser first retry t out bytes'},
      gcAllocBytes s bytes n hasFinaliser first retry=.ok (t,out,bytes') → HintSafe t := by
    intro bytes n hasFinaliser first retry t out bytes' hstep
    rw [gcAllocBytes] at hstep
    split at hstep <;> cases hstep
    case h_2 hok => exact alloc_safe h hok
  rw [gcReallocBytes] at hstep
  split_ifs at hstep with hnull hzero his hlock
  · exact halloc hstep
  · split at hstep <;> cases hstep
    case h_2 hfree => exact free_safe h hfree
  · cases hstep; exact h
  · rw [reallocBytes] at hstep
    split_ifs at hstep with hsame hless hmore hmove
    · cases hstep; exact h
    · cases hstep
      refine h.lower rfl rfl fun b hb => ?_
      dsimp only at hb
      rw [changeBlocks_apply] at hb
      split at hb
      case isTrue hin => exact .inr hin.1
      case isFalse => exact .inl hb
    · rw [growBytes,growChunk] at hstep
      split at hstep <;> cases hstep
      case h_2 hgrow =>
        split at hgrow <;> cases hgrow
        case h_2 table htable =>
          exact h.of_free rfl fun b _ hbefore hb => ⟨hbefore,growTail_frees _ htable b hb⟩
    · rw [moveBytes] at hstep
      split at hstep
      case h_1 => cases hstep
      case h_2 hmoved =>
        split at hstep
        · cases hstep
          exact halloc hmoved
        · dsimp only at hstep
          split at hstep <;> cases hstep
          case h_2 hfree hne => exact free_safe (halloc hmoved) hfree
    · cases hstep; exact h
  · cases hstep; exact h

/-- Free blocks one behind the other are counted. -/
theorem le_freeBefore {table : ℕ→Kind} {start c m : ℕ}
    (h : ∀ b,c ≤ b → b<c+m → start ≤ b∧table b=.free) : m ≤ freeBefore table start (c+m) := by
  induction m with
  | zero => exact Nat.zero_le _
  | succ m ih =>
    have hless := ih fun b hb hlt => h b hb (by omega)
    rw [←Nat.add_assoc,freeBefore,if_pos (h (c+m) (by omega) (by omega))]
    omega

end MicroPython.GcHint
