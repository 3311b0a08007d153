import MicroPython.GcHeap

/-!
# Chunks

A chunk is a head with the tail behind it, as far as it goes within the pool. In a
linked table every block of a tail has a head or another such block before it, and so
belongs to a chunk. A sweep frees the chunks whose heads are not marked and keeps the
others.
-/

namespace MicroPython.GcChunks

open Nat Function GcHeap

/-- Blocks from one on are a chunk of a pool. -/
structure Chunk (blocks : ℕ) (table : ℕ→Kind) (block n : ℕ) : Prop where
  /-- There is a head. -/
  pos : 0 < n
  /-- The chunk lies in the pool. -/
  inside : block+n≤blocks
  head : table block=.head
  tail : ∀ i,0 < i → i < n → table (block+i)=.tail
  ends : block+n < blocks → table (block+n)≠.tail

/-- A table without marks in which every tail follows a head. -/
structure Linked (blocks : ℕ) (table : ℕ→Kind) : Prop where
  unmarked : ∀ b,b < blocks → table b≠.mark
  first : 0 < blocks → table 0≠.tail
  follows : ∀ b,b+1 < blocks → table (b+1)=.tail → table b≠.free

variable {blocks : ℕ} {table table' : ℕ→Kind}

/-- A chunk goes on as far as its tail. -/
theorem exists_chunk_of_tail {h : ℕ} (hhead : table h=.head) (rest : ℕ) : ∀ {k : ℕ},
    h+k+1+rest=blocks → (∀ i,0 < i → i≤k → table (h+i)=.tail) →
      ∃ n,k < n∧Chunk blocks table h n := by
  induction rest with
  | zero =>
    intro k hrest htail
    refine ⟨k+1,lt_succ_self k,succ_pos k,by omega,hhead,?_,fun _ => by omega⟩
    exact fun i hi hk => htail i hi (le_of_lt_succ hk)
  | succ rest ih =>
    intro k hrest htail
    by_cases hnext : table (h+(k+1))=.tail
    case neg =>
      refine ⟨k+1,lt_succ_self k,succ_pos k,by omega,hhead,?_,fun _ => hnext⟩
      exact fun i hi hk => htail i hi (le_of_lt_succ hk)
    case pos =>
      have hlonger : ∀ i,0 < i → i≤k+1 → table (h+i)=.tail := by
        intro i hi hk
        rcases Nat.lt_or_eq_of_le hk with hlt | heq
        · exact htail i hi (le_of_lt_succ hlt)
        · exact heq ▸ hnext
      obtain ⟨n,hn,hchunk⟩ := ih (by omega) hlonger
      exact ⟨n,lt_of_succ_lt hn,hchunk⟩

theorem exists_chunk {h : ℕ} (hh : h < blocks) (hhead : table h=.head) :
    ∃ n,Chunk blocks table h n := by
  have hnone : ∀ i,0 < i → i≤0 → table (h+i)=.tail := by
    intro i hi hzero
    omega
  obtain ⟨n,_,hchunk⟩ := @exists_chunk_of_tail blocks table h hhead (blocks-(h+1)) 0 (by omega) hnone
  exact ⟨n,hchunk⟩

/-- A tail in a linked table goes back to a head. -/
theorem Linked.exists_head (h : Linked blocks table) : ∀ {b : ℕ},b < blocks →
    table b=.tail → ∃ a k,a+k=b∧0 < k∧table a=.head∧
      ∀ i,0 < i → i≤k → table (a+i)=.tail := by
  intro b
  induction b with
  | zero => exact fun hb htail => absurd htail (h.first hb)
  | succ b ih =>
    intro hb htail
    have hb' : b < blocks := lt_of_succ_lt hb
    cases hbefore : table b with
    | free => exact absurd hbefore (h.follows b hb htail)
    | mark => exact absurd hbefore (h.unmarked b hb')
    | head =>
      refine ⟨b,1,rfl,Nat.one_pos,hbefore,fun i hi hone => ?_⟩
      have hsame : i=1 := by omega
      exact hsame ▸ htail
    | tail =>
      obtain ⟨a,k,hak,_,hhead,hrest⟩ := ih hb' hbefore
      refine ⟨a,k+1,by omega,Nat.succ_pos k,hhead,fun i hi hk => ?_⟩
      rcases Nat.lt_or_eq_of_le hk with hlt | heq
      · exact hrest i hi (Nat.le_of_lt_succ hlt)
      · have hlast : a+i=b+1 := by omega
        exact hlast ▸ htail

theorem Linked.exists_owner (h : Linked blocks table) {b : ℕ} (hb : b < blocks)
    (htail : table b=.tail) : ∃ a n,Chunk blocks table a n∧a < b∧b < a+n := by
  obtain ⟨a,k,hak,hk,hhead,hrest⟩ := h.exists_head hb htail
  obtain ⟨n,hn,hchunk⟩ :=
    @exists_chunk_of_tail blocks table a hhead (blocks-(b+1)) k (by omega) hrest
  exact ⟨a,n,hchunk,by omega,by omega⟩

theorem Chunk.kind {h n b : ℕ} (hchunk : Chunk blocks table h n) (hb : h≤b) (hb' : b < h+n) :
    table b=if b=h then .head else .tail := by
  split
  case isTrue hsame => exact hsame ▸ hchunk.head
  case isFalse hne =>
    have htail := hchunk.tail (b-h) (by omega) (by omega)
    rw [Nat.add_sub_cancel' hb] at htail
    exact htail

/-- Chunks that share a block are the same. -/
theorem Chunk.eq_of_mem {h n h' n' b : ℕ} (hchunk : Chunk blocks table h n)
    (hchunk' : Chunk blocks table h' n') (hb : h≤b∧b < h+n) (hb' : h'≤b∧b < h'+n') :
    h=h'∧n=n' := by
  have hle : ∀ {h n h' n' : ℕ},Chunk blocks table h n → Chunk blocks table h' n' →
      h≤b∧b < h+n → h'≤b∧b < h'+n' → h'≤h := by
    intro h n h' n' hc hc' hb hb'
    by_contra hlt
    have hkind := hc.kind (show h≤h' by omega) (by omega)
    rw [if_neg (by omega),hc'.head] at hkind
    cases hkind
  have hsame : h=h' := Nat.le_antisymm (hle hchunk' hchunk hb' hb) (hle hchunk hchunk' hb hb')
  have hlength : ∀ {n n' : ℕ},Chunk blocks table h n → Chunk blocks table h n' → n≤n' := by
    intro n n' hc hc'
    by_contra hlt
    have hpos := hc'.pos
    have hinside := hc.inside
    exact hc'.ends (by omega) (hc.tail n' hpos (by omega))
  subst hsame
  exact ⟨rfl,Nat.le_antisymm (hlength hchunk hchunk') (hlength hchunk' hchunk)⟩

/-- A chunk stays when its blocks and the one behind it do not change, or the latter does
not get into a tail. -/
theorem Chunk.congr {h n : ℕ} (hchunk : Chunk blocks table h n)
    (hsame : ∀ b,h≤b → b < h+n → table' b=table b)
    (hends : h+n < blocks → table' (h+n)≠.tail) : Chunk blocks table' h n := by
  have hpos := hchunk.pos
  refine ⟨hpos,hchunk.inside,?_,?_,hends⟩
  · rw [hsame h (Nat.le_refl h) (by omega)]
    exact hchunk.head
  · intro i hi hn
    rw [hsame (h+i) (le_add_right h i) (by omega)]
    exact hchunk.tail i hi hn

/-! ## Changing a chunk -/

/-- The table when the chunk at a block gets another number of blocks. -/
def resized (table : ℕ→Kind) (block n n' : ℕ) (b : ℕ) : Kind :=
  if block≤b∧b < block+n' then if b=block then .head else .tail
  else if block≤b∧b < block+n then .free
  else table b

/-- A chunk, or none, that can get another number of blocks. -/
structure Resizable (blocks : ℕ) (table : ℕ→Kind) (block n n' : ℕ) : Prop where
  linked : Linked blocks table
  owned : 0 < n → Chunk blocks table block n
  room : ∀ b,block+n≤b → b < block+n' → b < blocks∧table b=.free

variable {n n' : ℕ}

section

variable (h : Resizable blocks table block n n')
include h

/-- The blocks that it gets are in the pool. -/
theorem Resizable.inside (hpos : 0 < n') :
    block+n'≤blocks := by
  rcases Nat.lt_or_ge n n' with hgrows | hshrinks
  · have hlast := (h.room (block+n'-1) (by omega) (by omega)).1
    omega
  · have hinside := (h.owned (by omega)).inside
    omega

/-- The table stays linked. -/
theorem Resizable.linked_resized :
    Linked blocks (resized table block n n') := by
  refine ⟨?_,?_,?_⟩
  · intro b hb
    rw [resized]
    split
    · split <;> exact Kind.noConfusion
    · split
      · exact Kind.noConfusion
      · exact h.linked.unmarked b hb
  · intro hpos
    rw [resized]
    split
    case isTrue hnew =>
      rw [if_pos (by omega)]
      exact Kind.noConfusion
    case isFalse =>
      split
      · exact Kind.noConfusion
      · exact h.linked.first hpos
  · intro b hb htail hfree
    rw [resized] at htail
    split at htail
    case isTrue hnew =>
      have hne : b+1≠block := by
        intro heq
        rw [if_pos heq] at htail
        cases htail
      rw [resized,if_pos (by omega)] at hfree
      split at hfree <;> cases hfree
    case isFalse hnew =>
      split at htail
      case isTrue => cases htail
      case isFalse hold =>
        rw [resized] at hfree
        split at hfree
        case isTrue => split at hfree <;> cases hfree
        case isFalse hnew' =>
          split at hfree
          case isFalse => exact h.linked.follows b hb htail hfree
          case isTrue hold' =>
            have hend : b+1=block+n := by omega
            exact (h.owned (by omega)).ends (by omega) (hend ▸ htail)

/-- The chunk has its new number of blocks. -/
theorem Resizable.chunk_resized (hpos : 0 < n') :
    Chunk blocks (resized table block n n') block n' := by
  refine ⟨hpos,h.inside hpos,?_,?_,?_⟩
  · rw [resized,if_pos (by omega),if_pos rfl]
  · intro i hi hlt
    rw [resized,if_pos (by omega),if_neg (by omega)]
  · intro hend htail
    rw [resized,if_neg (by omega)] at htail
    split at htail
    case isTrue => cases htail
    case isFalse hold =>
      rcases Nat.lt_or_ge n n' with hgrows | hshrinks
      · have hsucc : block+n'-1+1=block+n' := by omega
        have hbefore := (h.room (block+n'-1) (by omega) (by omega)).2
        exact h.linked.follows (block+n'-1) (by omega) (hsucc.symm ▸ htail) hbefore
      · have hsame : n'=n := by omega
        subst hsame
        exact (h.owned hpos).ends hend htail

/-- The other chunks stay. -/
theorem Resizable.keeps {c m : ℕ}
    (hchunk : Chunk blocks table c m) (hother : c≠block∨n=0) :
    Chunk blocks (resized table block n n') c m := by
  have hpos := hchunk.pos
  -- the blocks of the other chunk are neither those of this one nor free
  have hapart : ∀ b,c≤b → b < c+m → ¬(block≤b∧b < block+n)∧¬(block≤b∧b < block+n') := by
    intro b hb hb'
    have hown : ¬(block≤b∧b < block+n) := by
      intro hin
      have hsame := (hchunk.eq_of_mem (h.owned (by omega)) ⟨hb,hb'⟩ hin).1
      omega
    refine ⟨hown,fun hin => ?_⟩
    have hfree := (h.room b (by omega) hin.2).2
    rw [hchunk.kind hb hb'] at hfree
    split at hfree <;> cases hfree
  refine hchunk.congr (fun b hb hb' => ?_) fun hend htail => ?_
  · rw [resized,if_neg (hapart b hb hb').2,if_neg (hapart b hb hb').1]
  · rw [resized] at htail
    split at htail
    case isTrue hnew =>
      split at htail
      case isTrue => cases htail
      case isFalse hne => exact (hapart (c+m-1) (by omega) (by omega)).2 ⟨by omega,by omega⟩
    case isFalse =>
      split at htail
      case isTrue => cases htail
      case isFalse => exact hchunk.ends hend htail

end

/-! ## Sweeping -/

/-- `free_tail` before a block. -/
def freeTail (table : ℕ→Kind) : ℕ→Bool
  | 0 => false
  | b+1 =>
    match table b with
    | .head => true
    | .mark => false
    | _ => freeTail table b

/-- What a sweep makes of a block. -/
def swept (table : ℕ→Kind) (b : ℕ) : Kind :=
  match table b with
  | .free => .free
  | .head => .free
  | .tail => if freeTail table b=true then .free else .tail
  | .mark => .head

/-- A sweep before a block. -/
structure SweptTo (table : ℕ→Kind) (flags : ℕ→Bool) (m : SweepState) (block : ℕ) : Prop where
  done : ∀ b,b < block → m.table b=swept table b
  rest : ∀ b,block≤b → m.table b=table b
  freeTail_eq : m.freeTail=freeTail table block
  /-- No flags but those of heads that were not marked are cleared. -/
  flags_eq : ∀ b,m.flags b=(flags b&&!decide (b < block∧table b=.head))

variable {flags : ℕ→Bool} {m : SweepState} {block : ℕ}

/-- A flag stays when no head is freed. -/
theorem flags_succ (hne : table block≠.head) (b : ℕ) :
    (flags b&&!decide (b < block+1∧table b=.head))=
      (flags b&&!decide (b < block∧table b=.head)) := by
  have hiff : b < block+1∧table b=.head↔b < block∧table b=.head := by
    constructor
    · rintro ⟨hb,hhead⟩
      refine ⟨Nat.lt_of_le_of_ne (le_of_lt_succ hb) fun hsame => ?_,hhead⟩
      exact hne (hsame ▸ hhead)
    · exact fun hb => ⟨lt_succ_of_lt hb.1,hb.2⟩
  simp only [hiff]

/-- The table is swept to the next block when the block has what it should. -/
theorem SweptTo.next {m' : SweepState} (h : SweptTo table flags m block)
    (hblock : m'.table block=swept table block)
    (hothers : ∀ b,b≠block → m'.table b=m.table b)
    (hfree : m'.freeTail=freeTail table (block+1))
    (hflags : ∀ b,m'.flags b=(flags b&&!decide (b < block+1∧table b=.head))) :
    SweptTo table flags m' (block+1) := by
  refine ⟨?_,?_,hfree,hflags⟩
  · intro b hb
    rcases Nat.lt_or_eq_of_le (Nat.le_of_lt_succ hb) with hlt | heq
    · rw [hothers b (Nat.ne_of_lt hlt)]
      exact h.done b hlt
    · exact heq ▸ hblock
  · intro b hb
    rw [hothers b (Nat.ne_of_gt hb)]
    exact h.rest b (le_of_succ_le hb)

/-- The step of a sweep. -/
theorem sweepBlock_spec (h : SweptTo table flags m block) :
    SweptTo table flags (sweepBlock m block) (block+1) := by
  have hkind : m.table block=table block := h.rest block (Nat.le_refl block)
  have hnext : freeTail table (block+1)=
      match table block with
      | .head => true
      | .mark => false
      | _ => freeTail table block := rfl
  have hflags : table block≠.head →
      ∀ b,m.flags b=(flags b&&!decide (b < block+1∧table b=.head)) := by
    intro hne b
    rw [flags_succ hne]
    exact h.flags_eq b
  rw [sweepBlock]
  cases hcase : table block with
  | free =>
    rw [hkind,hcase]
    refine h.next ?_ (fun _ _ => rfl) ?_ (hflags (by rw [hcase]; exact Kind.noConfusion))
    · rw [hkind,swept,hcase]
    · rw [hnext,hcase]
      exact h.freeTail_eq
  | mark =>
    rw [hkind,hcase]
    refine h.next ?_ ?_ ?_ (hflags (by rw [hcase]; exact Kind.noConfusion))
    · show Function.update m.table block _ block=_
      rw [update_self,swept,hcase]
      rfl
    · exact fun b hb => update_of_ne hb _ _
    · rw [hnext,hcase]
  | tail =>
    rw [hkind,hcase]
    have hsame := hflags (by rw [hcase]; exact Kind.noConfusion)
    dsimp only
    split
    case isTrue htrue =>
      refine h.next ?_ ?_ ?_ hsame
      · show Function.update m.table block _ block=_
        rw [update_self,swept,hcase]
        rw [if_pos (h.freeTail_eq ▸ htrue)]
      · exact fun b hb => update_of_ne hb _ _
      · rw [hnext,hcase]
        exact h.freeTail_eq
    case isFalse hfalse =>
      refine h.next ?_ (fun _ _ => rfl) ?_ hsame
      · rw [hkind,hcase,swept,hcase]
        dsimp only
        rw [if_neg (h.freeTail_eq ▸ hfalse)]
      · rw [hnext,hcase]
        exact h.freeTail_eq
  | head =>
    rw [hkind,hcase]
    refine h.next ?_ ?_ ?_ ?_
    · show Function.update m.table block _ block=_
      rw [update_self,swept,hcase]
    · exact fun b hb => update_of_ne hb _ _
    · rw [hnext,hcase]
    · intro b
      have hold := h.flags_eq b
      by_cases hb : b=block
      case pos =>
        have hcleared : decide (b < block+1∧table b=.head)=true := by
          rw [decide_eq_true_eq,hb]
          exact ⟨lt_succ_self block,hcase⟩
        rw [hcleared,Bool.not_true,Bool.and_false]
        dsimp only
        split
        case isTrue hset =>
          rw [hb]
          exact update_self _ _ _
        case isFalse hclear =>
          rw [hb]
          exact (Bool.not_eq_true _).mp hclear
      case neg =>
        have hiff : b < block+1∧table b=.head↔b < block∧table b=.head := by
          refine and_congr_left fun _ => ?_
          omega
        simp only [hiff]
        split
        case isTrue hset => rw [update_of_ne hb,hold]
        case isFalse hclear => exact hold

/-- The run of a sweep. -/
theorem gcSweep_spec (n : ℕ) : ∀ {m : SweepState} {block : ℕ},SweptTo table flags m block →
    SweptTo table flags (gcSweep n block m) (block+n) := by
  induction n with
  | zero => exact fun h => h
  | succ n ih =>
    intro m block h
    have hrest := ih (sweepBlock_spec h)
    rw [Nat.add_assoc,Nat.add_comm 1 n] at hrest
    exact hrest

theorem gcSweep_pool (table : ℕ→Kind) (flags : ℕ→Bool) (blocks : ℕ) :
    SweptTo table flags (gcSweep blocks 0 ⟨table,flags,false⟩) blocks := by
  have hstart : SweptTo table flags ⟨table,flags,false⟩ 0 := by
    refine ⟨fun b hb => absurd hb (not_lt_zero b),fun _ _ => rfl,rfl,fun b => ?_⟩
    have hnot : ¬(b < 0∧table b=.head) := fun hb => absurd hb.1 (not_lt_zero b)
    rw [decide_eq_false hnot,Bool.not_false,Bool.and_true]
  have hend := gcSweep_spec blocks hstart
  rw [Nat.zero_add] at hend
  exact hend

end MicroPython.GcChunks
