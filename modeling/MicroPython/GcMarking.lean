import MicroPython.GcChunks

/-!
# What a collection marks

The heads of the table are the nodes of a graph, whose edges are the words in the blocks
that are scanned for a head. One more node, without successors, stands for the end of
the table: a head leads to it when the scan for its tail reads there. The marking of a
collection ends within its steps, and marks what is reachable.
-/

namespace MicroPython.GcMarking

open Nat Function List GcHeap GcChunks Marking

/-- A word is a pointer to a head. -/
def PointsTo (s : Heap) (word block : ℕ) : Prop :=
  s.pool.VerifyPtr word∧s.pool.blockFromPtr word=block∧s.table block=.head

/-- The graph of the heads as they are scanned, with the end of the table. -/
def scanGraph (s : Heap) (e : Memory) : Graph (Option ℕ) where
  root
    | none => False
    | some block => ∃ word∈e.roots,PointsTo s word block
  edge
    | none,_ => False
    | some block,none => s.pool.blocks≤block+chainLength s e.behind s.table block
    | some block,some block' =>
      ∃ word∈children e block (chainLength s e.behind s.table block),PointsTo s word block'

/-- What is marked: a head, or the end of the table once it is read behind it. -/
def marked (s : Heap) (m : MarkState) : Option ℕ→Prop
  | none => m.outside=true
  | some block => block < s.pool.blocks∧m.table block=.mark

/-- The table differs from the one of the heap in marks on heads. -/
def Painted (s : Heap) (table : ℕ→Kind) : Prop :=
  ∀ b,table b=s.table b∨b < s.pool.blocks∧s.table b=.head∧table b=.mark

/-- The number of heads below a block that are not marked. -/
def heads (table : ℕ→Kind) : ℕ→ℕ
  | 0 => 0
  | b+1 => heads table b+if table b=.head then 1 else 0

/-- A marking on its way. -/
structure Good (s : Heap) (e : Memory) (m : MarkState) (later : Option ℕ→Prop) : Prop where
  /-- Only heads are marked. -/
  painted : Painted s m.table
  progress : Progress (scanGraph s e) (marked s m) (m.stack.map some) m.overflow later

/-- What a marking does from one state to another. -/
structure Follows (s : Heap) (m m' : MarkState) : Prop where
  marks : ∀ x,marked s m x → marked s m' x
  /-- A block is put on the stack when it gets marked. -/
  count : heads m'.table s.pool.blocks+m'.stack.length≤ heads m.table s.pool.blocks+m.stack.length
  /-- No block gets unmarked. -/
  heads_le : heads m'.table s.pool.blocks≤heads m.table s.pool.blocks
  /-- The flag is set when a block gets marked. -/
  overflow : m'.overflow=true → m.overflow=true∨
    heads m'.table s.pool.blocks < heads m.table s.pool.blocks

variable {s : Heap} {e : Memory} {m m' m'' : MarkState} {later : Option ℕ→Prop}

/-- Nothing is done. -/
theorem Follows.refl (m : MarkState) : Follows s m m :=
  ⟨fun _ h => h,Nat.le_refl _,Nat.le_refl _,.inl⟩

/-- One thing is done after another. -/
theorem Follows.trans (h : Follows s m m') (h' : Follows s m' m'') : Follows s m m'' := by
  refine ⟨fun x hx => h'.marks x (h.marks x hx),Nat.le_trans h'.count h.count,
    Nat.le_trans h'.heads_le h.heads_le,fun hflag => ?_⟩
  have hle := h.heads_le
  have hle' := h'.heads_le
  rcases h'.overflow hflag with hbefore | hless
  · exact (h.overflow hbefore).imp id fun hlt => Nat.lt_of_le_of_lt hle' hlt
  · exact .inr (Nat.lt_of_lt_of_le hless hle)

/-! ## Heads -/

/-- A change at another block. -/
theorem heads_update_ge (table : ℕ→Kind) {block n : ℕ} (h : n≤block) :
    heads (Function.update table block .mark) n=heads table n := by
  induction n with
  | zero => rfl
  | succ n ih =>
    have hne : n≠block := Nat.ne_of_lt h
    rw [heads,heads,ih (le_of_succ_le h),update_of_ne hne]

/-- A head gets marked. -/
theorem heads_update {table : ℕ→Kind} {block n : ℕ} (h : block < n) (hhead : table block=.head) :
    heads (Function.update table block .mark) n+1=heads table n := by
  induction n with
  | zero => omega
  | succ n ih =>
    rw [heads,heads]
    rcases Nat.lt_or_eq_of_le (Nat.le_of_lt_succ h) with hlt | heq
    · have hne : n≠block := Nat.ne_of_gt hlt
      rw [update_of_ne hne]
      omega
    · subst heq
      rw [heads_update_ge table (Nat.le_refl block),update_self,if_pos hhead,
        if_neg Kind.noConfusion]

/-- There are no more heads than blocks. -/
theorem heads_le (table : ℕ→Kind) (n : ℕ) : heads table n≤n := by
  induction n with
  | zero => exact Nat.le_refl 0
  | succ n ih =>
    rw [heads]
    split <;> omega

/-! ## Chains -/

theorem tailLength_congr {kind kind' : ℕ→Kind} (h : ∀ b,kind b=.tail↔kind' b=.tail) (n : ℕ) :
    ∀ block,tailLength kind n block=tailLength kind' n block := by
  induction n with
  | zero => exact fun _ => rfl
  | succ n ih =>
    intro block
    rw [tailLength,tailLength,ih]
    simp only [h block]

/-- Marks do not change how long chains are. -/
theorem Painted.chainLength_eq {table : ℕ→Kind} (h : Painted s table) (behind : List Kind)
    (block : ℕ) : chainLength s behind table block=chainLength s behind s.table block := by
  rw [chainLength,chainLength]
  refine congrArg (1+·) (tailLength_congr (fun b => ?_) _ _)
  rw [atbGetKind,atbGetKind]
  split
  case isFalse => exact Iff.rfl
  case isTrue hb =>
    rcases h b with hsame | ⟨_,hhead,hmark⟩
    · rw [hsame]
    · rw [hhead,hmark]
      exact iff_of_false Kind.noConfusion Kind.noConfusion

/-! ## Pointers -/

/-- What is marked when one more block is. -/
theorem marked_update {block : ℕ} (hblock : block < s.pool.blocks) (stack : List ℕ)
    (overflow : Bool) (x : Option ℕ) :
    marked s ⟨Function.update m.table block .mark,stack,overflow,m.outside⟩ x↔
      marked s m x∨x=some block := by
  cases x with
  | none =>
    refine ⟨.inl,fun h => h.elim id fun hne => ?_⟩
    cases hne
  | some b =>
    show b < _∧Function.update m.table block .mark b=.mark↔_
    by_cases hb : b=block
    case pos =>
      subst hb
      rw [update_self]
      exact iff_of_true ⟨hblock,rfl⟩ (.inr rfl)
    case neg =>
      rw [update_of_ne hb]
      refine ⟨.inl,fun h => h.elim id fun hsame => ?_⟩
      exact absurd (Option.some.inj hsame) hb

/-- The table when one more head is marked. -/
theorem Painted.update (h : Painted s m.table) {block : ℕ} (hblock : block < s.pool.blocks)
    (hhead : m.table block=.head) : Painted s (Function.update m.table block .mark) := by
  intro b
  by_cases hb : b=block
  case pos =>
    subst hb
    rw [update_self]
    rcases h b with hsame | ⟨_,hhead',_⟩
    · exact .inr ⟨hblock,hsame ▸ hhead,rfl⟩
    · exact .inr ⟨hblock,hhead',rfl⟩
  case neg =>
    rw [update_of_ne hb]
    exact h b

/-- A word is looked at that is a root or in a block that is reachable. -/
theorem verifyMarkAndPush_spec (h : Good s e m later) {word : ℕ}
    (hreach : ∀ block,PointsTo s word block → Reachable (scanGraph s e) (some block)) :
    Good s e (verifyMarkAndPush s.pool e.capacity m word) later∧
      Follows s m (verifyMarkAndPush s.pool e.capacity m word)∧
      ∀ block,PointsTo s word block →
        marked s (verifyMarkAndPush s.pool e.capacity m word) (some block) := by
  rw [verifyMarkAndPush]
  by_cases hptr : s.pool.VerifyPtr word
  case neg =>
    rw [if_neg hptr]
    exact ⟨h,.refl m,fun block hpoints => absurd hpoints.1 hptr⟩
  case pos =>
    rw [if_pos hptr]
    have hblock := Pool.blockFromPtr_lt hptr
    generalize hb : s.pool.blockFromPtr word=block at hblock
    dsimp only
    by_cases hhead : m.table block=.head
    case neg =>
      rw [if_neg hhead]
      refine ⟨h,.refl m,fun block' hpoints => ?_⟩
      have hsame : block=block' := hb.symm.trans hpoints.2.1
      subst hsame
      rcases h.painted block with hbase | ⟨_,_,hmark⟩
      · exact absurd (hbase.trans hpoints.2.2) hhead
      · exact ⟨hblock,hmark⟩
    case pos =>
      rw [if_pos hhead]
      have hbase : s.table block=.head := by
        rcases h.painted block with hsame | ⟨_,hbase,_⟩
        · exact hsame ▸ hhead
        · exact hbase
      have hpoints : PointsTo s word block := ⟨hptr,hb,hbase⟩
      have hfewer := heads_update hblock hhead
      have hnew : ∀ stack overflow block',PointsTo s word block' →
          marked s ⟨Function.update m.table block .mark,stack,overflow,m.outside⟩
            (some block') := by
        intro stack overflow block' hpoints'
        have hsame : block=block' := hb.symm.trans hpoints'.2.1
        exact (marked_update hblock stack overflow _).mpr (.inr (congrArg some hsame.symm))
      split
      case isTrue hroom =>
        refine ⟨⟨h.painted.update hblock hhead,?_⟩,⟨?_,?_,?_,.inl⟩,hnew _ _⟩
        · exact h.progress.push (hreach block hpoints) (marked_update hblock _ _)
        · exact fun x hx => (marked_update hblock _ _ x).mpr (.inl hx)
        · dsimp only
          rw [length_cons]
          omega
        · dsimp only
          omega
      case isFalse hfull =>
        refine ⟨⟨h.painted.update hblock hhead,?_⟩,⟨?_,?_,?_,fun _ => .inr ?_⟩,hnew _ _⟩
        · exact h.progress.overflows (hreach block hpoints) (marked_update hblock _ _)
        · exact fun x hx => (marked_update hblock _ _ x).mpr (.inl hx)
        · dsimp only
          omega
        · dsimp only
          omega
        · dsimp only
          omega

/-- The words of a block that is scanned. -/
theorem scan_spec (words : List ℕ) : ∀ {m : MarkState},Good s e m later →
    (∀ word∈words,∀ block,PointsTo s word block → Reachable (scanGraph s e) (some block)) →
    Good s e (words.foldl (verifyMarkAndPush s.pool e.capacity) m) later∧
      Follows s m (words.foldl (verifyMarkAndPush s.pool e.capacity) m)∧
      ∀ word∈words,∀ block,PointsTo s word block →
        marked s (words.foldl (verifyMarkAndPush s.pool e.capacity) m) (some block) := by
  induction words with
  | nil => exact fun h _ => ⟨h,.refl _,fun word hword => absurd hword not_mem_nil⟩
  | cons word words ih =>
    intro m h hreach
    obtain ⟨hgood,hfollows,hmarked⟩ :=
      verifyMarkAndPush_spec h (hreach word mem_cons_self)
    obtain ⟨hgood',hfollows',hmarked'⟩ :=
      ih hgood fun word' hword => hreach word' (mem_cons_of_mem _ hword)
    refine ⟨hgood',hfollows.trans hfollows',fun word' hword block hpoints => ?_⟩
    cases mem_cons.mp hword with
    | inl hsame => exact hfollows'.marks _ (hmarked block (hsame ▸ hpoints))
    | inr hrest => exact hmarked' word' hrest block hpoints

/-! ## Loops -/

/-- The state when a block is taken from the stack. -/
def popped (s : Heap) (e : Memory) (m : MarkState) (block : ℕ) (stack : List ℕ) : MarkState :=
  {m with
    stack := stack
    outside := m.outside||
      decide (s.pool.blocks≤block+chainLength s e.behind m.table block)}

/-- A block is taken from the stack. -/
theorem popped_spec (h : Good s e m later) {block : ℕ} {stack : List ℕ}
    (hstack : m.stack=block::stack) :
    Good s e (popped s e m block stack) (fun x => later x∨x=some block)∧
      Follows s m (popped s e m block stack)∧
      (s.pool.blocks≤block+chainLength s e.behind s.table block →
        marked s (popped s e m block stack) none) := by
  have hprogress := h.progress
  rw [hstack,map_cons] at hprogress
  have hpop := hprogress.pop
  have hchain := h.painted.chainLength_eq e.behind block
  have hreach : Reachable (scanGraph s e) (some block) :=
    hprogress.sound _ (hprogress.onStack _ mem_cons_self)
  have hfollows : Follows s m (popped s e m block stack) := by
    refine ⟨?_,?_,Nat.le_refl _,.inl⟩
    · intro x hx
      cases x with
      | none =>
        show (m.outside||_)=true
        rw [show m.outside=true from hx,Bool.true_or]
      | some b => exact hx
    · rw [hstack]
      exact Nat.add_le_add_left (Nat.le_succ _) _
  by_cases hend : s.pool.blocks≤block+chainLength s e.behind s.table block
  case pos =>
    have houtside : (m.outside||
        decide (s.pool.blocks≤block+chainLength s e.behind m.table block))=true := by
      rw [hchain,decide_eq_true hend,Bool.or_true]
    refine ⟨⟨h.painted,?_⟩,hfollows,fun _ => houtside⟩
    have hnone : Reachable (scanGraph s e) none := .edge hreach hend
    refine hpop.leaf hnone (fun z hz => hz) fun z => ?_
    cases z with
    | none => exact iff_of_true houtside (.inr rfl)
    | some b => exact ⟨.inl,fun hb => hb.elim id fun hsome => (by cases hsome)⟩
  case neg =>
    have houtside : (m.outside||
        decide (s.pool.blocks≤block+chainLength s e.behind m.table block))=m.outside := by
      rw [hchain,decide_eq_false hend,Bool.or_false]
    refine ⟨⟨h.painted,?_⟩,hfollows,fun hend' => absurd hend' hend⟩
    have hsame : marked s (popped s e m block stack)=marked s m := by
      funext x
      cases x with
      | none => exact congrArg (·=true) houtside
      | some b => rfl
    rw [hsame]
    exact hpop

/-- The stack is drained. -/
theorem gcDrainStack_spec (fuel : ℕ) : ∀ {m : MarkState},Good s e m later →
    heads m.table s.pool.blocks+m.stack.length < fuel →
      ∃ m',gcDrainStack s e fuel m=.ok m'∧Good s e m' later∧Follows s m m'∧m'.stack=[] := by
  induction fuel with
  | zero => exact fun _ hfuel => absurd hfuel (not_lt_zero _)
  | succ fuel ih =>
    intro m h hfuel
    rw [gcDrainStack]
    cases hstack : m.stack with
    | nil => exact ⟨m,rfl,h,.refl m,hstack⟩
    | cons block stack =>
      obtain ⟨hpop,hfollows,hnone⟩ := popped_spec h hstack
      have hlength : (popped s e m block stack).stack.length+1=m.stack.length := by
        rw [hstack]
        rfl
      have hchain := h.painted.chainLength_eq e.behind block
      have hreach : Reachable (scanGraph s e) (some block) := by
        refine h.progress.sound _ (h.progress.onStack _ ?_)
        rw [hstack]
        exact mem_cons_self
      obtain ⟨hscan,hfollows',hmarked⟩ := scan_spec
        (children e block (chainLength s e.behind m.table block)) hpop (by
          intro word hword block' hpoints
          rw [hchain] at hword
          exact .edge hreach ⟨word,hword,hpoints⟩)
      have hclosed : Good s e ((children e block (chainLength s e.behind m.table block)).foldl
          (verifyMarkAndPush s.pool e.capacity) (popped s e m block stack)) later := by
        refine ⟨hscan.painted,hscan.progress.close fun x hx => ?_⟩
        cases x with
        | none => exact hfollows'.marks none (hnone hx)
        | some block' =>
          obtain ⟨word,hword,hpoints⟩ := hx
          exact hmarked word (hchain ▸ hword) block' hpoints
      have hcount := hfollows'.count
      have hsame : heads (popped s e m block stack).table s.pool.blocks=
          heads m.table s.pool.blocks := rfl
      obtain ⟨m',hdrain,hgood,hrest,hempty⟩ := ih hclosed (by omega)
      exact ⟨m',hdrain,hgood,(hfollows.trans hfollows').trans hrest,hempty⟩

/-- The roots are marked. -/
theorem gcCollectRoot_spec (words : List ℕ) : ∀ {m : MarkState},Good s e m later →
    m.stack=[] → (∀ word∈words,word∈e.roots) →
      ∃ m',gcCollectRoot s e words m=.ok m'∧Good s e m' later∧Follows s m m'∧m'.stack=[]∧
        ∀ word∈words,∀ block,PointsTo s word block → marked s m' (some block) := by
  induction words with
  | nil =>
    intro m h hstack _
    exact ⟨m,rfl,h,.refl m,hstack,fun word hword => absurd hword not_mem_nil⟩
  | cons word words ih =>
    intro m h hstack hroots
    obtain ⟨hgood,hfollows,hmarked⟩ := verifyMarkAndPush_spec h fun block hpoints =>
      .root ⟨word,hroots word mem_cons_self,hpoints⟩
    have hcount := hfollows.count
    have hheads := heads_le m.table s.pool.blocks
    obtain ⟨m1,hdrain,hgood1,hfollows1,hstack1⟩ := gcDrainStack_spec s.steps hgood (by
      rw [hstack,length_nil] at hcount
      rw [Heap.steps]
      omega)
    obtain ⟨m',hrest,hgood',hfollows',hstack',hmarked'⟩ := ih hgood1 hstack1 fun word' hword =>
      hroots word' (mem_cons_of_mem _ hword)
    refine ⟨m',?_,hgood',(hfollows.trans hfollows1).trans hfollows',hstack',?_⟩
    · rw [gcCollectRoot,hdrain]
      exact hrest
    · intro word' hword block hpoints
      cases mem_cons.mp hword with
      | inl hsame =>
        exact hfollows'.marks _ (hfollows1.marks _ (hmarked block (hsame ▸ hpoints)))
      | inr hmem => exact hmarked' word' hmem block hpoints

/-- The nodes that are visited when the table is scanned from a block on. -/
def fromBlock (block : ℕ) : Option ℕ→Prop
  | none => True
  | some b => block≤b

/-- The table is scanned again. -/
theorem rescan_spec (n : ℕ) : ∀ {block : ℕ} {m : MarkState},block+n=s.pool.blocks →
    Good s e m (fromBlock block) → m.stack=[] →
      ∃ m',rescan s e n block m=.ok m'∧Good s e m' (fromBlock s.pool.blocks)∧
        Follows s m m'∧m'.stack=[] := by
  induction n with
  | zero =>
    intro block m hblock h hstack
    exact ⟨m,rfl,hblock ▸ h,.refl m,hstack⟩
  | succ n ih =>
    intro block m hblock h hstack
    have hnext : ∀ x,fromBlock block x → fromBlock (block+1) x∨x=some block := by
      intro x hx
      cases x with
      | none => exact .inl trivial
      | some b =>
        rcases Nat.lt_or_eq_of_le (show block≤b from hx) with hlt | heq
        · exact .inl hlt
        · exact .inr (congrArg some heq.symm)
    rw [rescan]
    by_cases hmark : m.table block=.mark
    case neg =>
      rw [if_neg hmark]
      refine ih (by omega) ⟨h.painted,h.progress.settle fun x hx hlate => ?_⟩ hstack
      refine (hnext x hlate).imp id fun hsame => ?_
      subst hsame
      exact absurd hx.2 hmark
    case pos =>
      have hroom : m.stack.length < e.capacity := by
        rw [hstack]
        exact e.capacity_pos
      rw [if_pos hmark,if_pos hroom]
      have hpush : Good s e {m with stack := block::m.stack} (fromBlock (block+1)) := by
        refine ⟨h.painted,?_⟩
        exact h.progress.visit (show marked s m (some block) from ⟨by omega,hmark⟩) hnext
      have hheads := heads_le m.table s.pool.blocks
      obtain ⟨m1,hdrain,hgood,hfollows,hstack1⟩ := gcDrainStack_spec s.steps hpush (by
        dsimp only
        rw [hstack,Heap.steps,length_singleton]
        omega)
      obtain ⟨m',hrest,hgood',hfollows',hstack'⟩ := ih (by omega) hgood hstack1
      refine ⟨m',?_,hgood',?_,hstack'⟩
      · rw [hdrain]
        exact hrest
      · refine Follows.trans ⟨hfollows.marks,?_,hfollows.heads_le,hfollows.overflow⟩ hfollows'
        rw [hstack1]
        exact Nat.le_trans (Nat.le_trans (Nat.le_of_eq (Nat.add_zero _)) hfollows.heads_le)
          (le_add_right _ _)

/-- The overflow is dealt with. -/
theorem gcDealWithStackOverflow_spec (fuel : ℕ) : ∀ {m : MarkState},
    Good s e m (fun _ => False) → m.stack=[] → 0 < fuel →
      (m.overflow=true → heads m.table s.pool.blocks+1 < fuel) →
      ∃ m',gcDealWithStackOverflow s e fuel m=.ok m'∧Good s e m' (fun _ => False)∧
        Follows s m m'∧m'.stack=[]∧m'.overflow=false := by
  induction fuel with
  | zero => exact fun _ _ hfuel => absurd hfuel (Nat.lt_irrefl 0)
  | succ fuel ih =>
    intro m h hstack _ hfuel
    rw [gcDealWithStackOverflow]
    by_cases hflag : m.overflow=true
    case neg =>
      rw [if_neg hflag]
      exact ⟨m,rfl,h,.refl m,hstack,(Bool.not_eq_true _).mp hflag⟩
    case pos =>
      rw [if_pos hflag]
      have hfuel := hfuel hflag
      have hrestart : Good s e {m with
          stack := []
          overflow := false} (fromBlock 0) := by
        refine ⟨h.painted,h.progress.restart fun x hx => ?_⟩
        cases x with
        | none => trivial
        | some b => exact Nat.zero_le b
      have hstart : Follows s m {m with
          stack := []
          overflow := false} :=
        ⟨fun _ hx => hx,Nat.add_le_add_left (Nat.zero_le _) _,Nat.le_refl _,fun hf => .inl hflag⟩
      obtain ⟨m1,hrescan,hgood,hfollows,hstack1⟩ :=
        rescan_spec s.pool.blocks (Nat.zero_add _) hrestart rfl
      have hgood1 : Good s e m1 (fun _ => False) := by
        refine ⟨hgood.painted,hgood.progress.settle fun x hx hlate => .inr fun y hy => ?_⟩
        cases x with
        | none => exact absurd hy id
        | some b => exact absurd hx.1 (Nat.not_lt.mpr hlate)
      have hless : m1.overflow=true →
          heads m1.table s.pool.blocks < heads m.table s.pool.blocks := by
        intro hflag1
        cases hfollows.overflow hflag1 with
        | inl hbefore => cases hbefore
        | inr hlt => exact hlt
      obtain ⟨m',hloop,hgood',hfollows',hstack',hflag'⟩ := ih hgood1 hstack1 (by omega)
        fun hflag1 => Nat.lt_of_le_of_lt (hless hflag1) (by omega)
      refine ⟨m',?_,hgood',(hstart.trans hfollows).trans hfollows',hstack',hflag'⟩
      rw [hrescan]
      exact hloop

/-- The marking of a collection ends, and marks what is reachable. -/
theorem gcMark_spec (s : Heap) (hlinked : Linked s.pool.blocks s.table) (e : Memory) :
    ∃ m,gcMark s e=.ok m∧Painted s m.table∧
      ∀ x,marked s m x↔Reachable (scanGraph s e) x := by
  have hstart : Good s e ⟨s.table,[],false,false⟩ (fun _ => False) := by
    refine ⟨fun b => .inl rfl,⟨?_,fun x hx => absurd hx not_mem_nil,.inr ?_⟩⟩
    · intro x hx
      cases x with
      | none => cases hx
      | some b => exact absurd hx.2 (hlinked.unmarked b hx.1)
    · intro x hx
      cases x with
      | none => cases hx
      | some b => exact absurd hx.2 (hlinked.unmarked b hx.1)
  obtain ⟨m1,hroots,hgood,_,hstack,hmarked⟩ :=
    gcCollectRoot_spec e.roots hstart rfl fun _ hword => hword
  have hheads := heads_le m1.table s.pool.blocks
  obtain ⟨m,hdeal,hgood',hfollows,hstack',hflag⟩ := gcDealWithStackOverflow_spec s.steps
    hgood hstack (succ_pos _) fun _ => by
      rw [Heap.steps]
      omega
  refine ⟨m,?_,hgood'.painted,fun x => ?_⟩
  · rw [gcMark,hroots]
    exact hdeal
  · have hprogress := hgood'.progress
    rw [hstack',hflag] at hprogress
    refine hprogress.complete (fun y hy => ?_) x
    cases y with
    | none => exact absurd hy id
    | some block =>
      obtain ⟨word,hword,hpoints⟩ := hy
      exact hfollows.marks _ (hmarked word hword block hpoints)

end MicroPython.GcMarking
