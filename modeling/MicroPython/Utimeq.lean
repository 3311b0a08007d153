import MicroPython.BinaryHeap
import MicroPython.InputMachine
import Mathlib.Data.List.Pairwise

/-!
# The queue of timed callbacks

The queue of `utimeq` is a binary heap of entries ordered by their times on the ring of
ticks, and by a counter of pushes where the times are equal. Every pop gives the task
that comes first, as long as the times that are queued lie in half of the ring and the
counter has not wrapped.
-/

namespace MicroPython.Utimeq

open Nat List InputMachine BinaryHeap

/-- The numbers of a build. -/
structure Build where
  /-- The number of values of a machine word. -/
  word : ℕ
  period : ℕ
  /-- The period is at most what the small integers leave of a word. -/
  fits : 2*period≤word
  /-- There are ticks. -/
  pos : 0<period

/-- A build for 32-bit words with the greatest period. -/
def Build.word32 : Build := ⟨4294967296,1073741824,by decide,by decide⟩

/-- A task to be called at its time. -/
structure Task (β : Type) where
  time : ℕ
  callback : β
  /-- What it is called with. -/
  args : β
deriving DecidableEq

/-- A slot of the queue. -/
structure Qentry (β : Type) extends Task β where
  /-- The number of the push. -/
  id : ℕ
deriving DecidableEq

/-- A queue, with the counter of pushes that all queues share. -/
structure Heap (β : Type) where
  /-- The number of slots. -/
  alloc : ℕ
  /-- The slots in use. -/
  items : List (Qentry β)
  /-- The counter of pushes. -/
  utimeqId : ℕ
deriving DecidableEq

variable {β : Type} {b : Build}

/-- A new queue. -/
def utimeqMakeNew (alloc utimeqId : ℕ) : Heap β := ⟨alloc,[],utimeqId⟩

/-- An entry comes before another one. -/
def timeLessThan (b : Build) (item parent : Qentry β) : Bool :=
  let res := (parent.time+b.word-item.time)%b.word
  if res=0 then decide (item.id<parent.id)
  else
    let res := if b.word≤2*res then (res+b.period)%b.word else res
    decide (res≠0∧res<b.period/2)

/-- The entry at a place travels towards the root. -/
def heapSiftdown (b : Build) (items : List (Qentry β)) (startPos pos : ℕ) : List (Qentry β) :=
  match items[pos]? with
  | none => items
  | some item => siftDown (timeLessThan b) item startPos items pos

/-- The entry at a place sinks to where it belongs. -/
def heapSiftup (b : Build) (items : List (Qentry β)) (pos : ℕ) : List (Qentry β) :=
  siftUp (timeLessThan b) items pos

/-- What a method gives. -/
inductive Output (β : Type)
  | done
  /-- The fields of an entry, stored in the list. -/
  | task (t : Task β)
  | time (t : ℕ)
  /-- An `IndexError` with its text. -/
  | indexError (text : String)
  /-- A `TypeError` without a text. -/
  | typeError
deriving DecidableEq

/-- `push`: a task in a new slot, which travels to where it belongs. -/
def modUtimeqHeappush (b : Build) (heap : Heap β) (t : Task β) : Heap β×Output β :=
  if heap.items.length=heap.alloc then (heap,.indexError "queue overflow")
  else
    let l := heap.items.length
    let entry := ⟨{t with time := t.time%b.word},heap.utimeqId⟩
    ({heap with
      items := heapSiftdown b (heap.items++[entry]) 0 l
      utimeqId := (heap.utimeqId+1)%b.word},.done)

/-- `pop` into an object, of which the length is given when it is a list: the first entry,
whose place the last one takes. -/
def modUtimeqHeappop (b : Build) (heap : Heap β) (ret : Option ℕ) : Heap β×Output β :=
  match heap.items with
  | [] => (heap,.indexError "empty heap")
  | item::_ =>
    if ret.any (3≤·) then ({heap with items := removeFirst (timeLessThan b) heap.items},
      .task item.toTask)
    else (heap,.typeError)

/-- `peektime`: the time of the first entry. -/
def modUtimeqPeektime (heap : Heap β) : Output β :=
  match heap.items with
  | [] => .indexError "empty heap"
  | item::_ => .time item.time

/-- A call of a method. -/
inductive Op (β : Type)
  /-- `push`. -/
  | push (t : Task β)
  /-- `pop` into an object, of which the length is given when it is a list. -/
  | pop (ret : Option ℕ)
  /-- `peektime`. -/
  | peektime
  /-- A push on another queue, which moves the counter. -/
  | other
deriving DecidableEq

/-- One call. None is a fault. -/
def step (b : Build) (heap : Heap β) : Op β→Except Empty (Heap β×Output β)
  | .push t => .ok (modUtimeqHeappush b heap t)
  | .pop ret => .ok (modUtimeqHeappop b heap ret)
  | .peektime => .ok (heap,modUtimeqPeektime heap)
  | .other => .ok ({heap with utimeqId := (heap.utimeqId+1)%b.word},.done)

/-! ## What a queue is for -/

/-- How far a time is ahead of another one on the ring. -/
def ahead (period t u : ℕ) : ℕ := if t≤u then u-t else u+period-t

/-- A task of a queue in push order is the next one: those pushed before it are later, and
those pushed after it are not earlier, on the ring. The others stay. -/
def Serves (period : ℕ) (q : List (Task β)) (t : Task β) (q' : List (Task β)) : Prop :=
  ∃ front back,q=front++t::back∧q'=front++back∧
    (∀ u∈front,0<ahead period t.time u.time∧ahead period t.time u.time<period/2)∧
    ∀ u∈back,ahead period t.time u.time<period/2

/-- What a call does to a queue in push order. -/
inductive Call (period alloc : ℕ) : List (Task β)→Op β→Output β→List (Task β)→Prop
  | push {q : List (Task β)} (t : Task β) : q.length<alloc →
      Call period alloc q (.push t) .done (q++[t])
  | overflow {q : List (Task β)} (t : Task β) : q.length=alloc →
      Call period alloc q (.push t) (.indexError "queue overflow") q
  | pop {q q' : List (Task β)} {t : Task β} {len : ℕ} : 3≤len → Serves period q t q' →
      Call period alloc q (.pop (some len)) (.task t) q'
  | popEmpty (ret : Option ℕ) : Call period alloc [] (.pop ret) (.indexError "empty heap") []
  /-- The object is no list of three items. -/
  | popRefused {q : List (Task β)} {ret : Option ℕ} : q≠[] → (∀ len,ret=some len → len<3) →
      Call period alloc q (.pop ret) .typeError q
  | peektime {q q' : List (Task β)} {t : Task β} : Serves period q t q' →
      Call period alloc q .peektime (.time t.time) q
  | peekEmpty : Call period alloc [] .peektime (.indexError "empty heap") []
  | other {q : List (Task β)} : Call period alloc q .other .done q

/-- What calls in a row do to a queue in push order. -/
inductive Trace (period alloc : ℕ) : List (Task β)→List (Op β)→List (Output β)→List (Task β)→Prop
  | nil {q : List (Task β)} : Trace period alloc q [] [] q
  | cons {q q' q'' : List (Task β)} {op : Op β} {out : Output β} {ops : List (Op β)}
      {outs : List (Output β)} : Call period alloc q op out q' →
      Trace period alloc q' ops outs q'' → Trace period alloc q (op::ops) (out::outs) q''

/-- The tasks that calls have queued. -/
def pushed (ops : List (Op β)) (outs : List (Output β)) : List (Task β) :=
  (ops.zip outs).filterMap fun
    | (.push t,.done) => some t
    | _ => none

/-- The tasks that calls have given. -/
def popped (outs : List (Output β)) : List (Task β) :=
  outs.filterMap fun
    | .task t => some t
    | _ => none

/-- Times lie in a window shorter than half the period, which may reach across the wrap. -/
def Window (period : ℕ) (times : List ℕ) : Prop :=
  ∃ start,start<period∧∀ t∈times,ahead period start t<period/2

/-- A call queues ticks only, keeps the queued times in a window and does not wrap the
counter. -/
def Fits (b : Build) (heap : Heap β) : Op β→Prop
  | .push t => heap.items.length<heap.alloc → t.time<b.period∧heap.utimeqId+1<b.word∧
      Window b.period (t.time::heap.items.map fun x => x.time)
  | .pop _ => True
  | .peektime => True
  | .other => heap.utimeqId+1<b.word

/-! ## The order of the entries -/

/-- The difference of two ticks as a machine word. -/
theorem sub_word {x y : ℕ} (hx : x<b.period) (hy : y<b.period) :
    (y+b.word-x)%b.word=if x≤y then y-x else y+b.word-x := by
  have hfits := b.fits
  split
  case isTrue h =>
    have hsplit : y+b.word-x=y-x+b.word := by omega
    rw [hsplit,add_mod_right,mod_eq_of_lt (by omega)]
  case isFalse h => exact mod_eq_of_lt (by omega)

/-- An entry comes before another one when it was pushed before it for the same time, or
when the time of the other one is ahead by less than half the period. -/
theorem timeLessThan_iff {x y : Qentry β} (hx : x.time<b.period) (hy : y.time<b.period) :
    timeLessThan b x y=true↔x.time=y.time∧x.id<y.id∨
      0<ahead b.period x.time y.time∧ahead b.period x.time y.time<b.period/2 := by
  have hfits := b.fits
  rw [timeLessThan,sub_word hx hy,ahead]
  cases Decidable.em (x.time≤y.time) with
  | inl hle =>
    rw [if_pos hle,if_pos hle]
    split
    case isTrue h =>
      rw [decide_eq_true_iff]
      omega
    case isFalse h =>
      rw [if_neg (by omega),decide_eq_true_iff]
      omega
  | inr hle =>
    have hwrap : y.time+b.word-x.time+b.period=y.time+b.period-x.time+b.word := by omega
    rw [if_neg hle,if_neg hle,if_neg (by omega),if_pos (by omega),decide_eq_true_iff,hwrap,
      add_mod_right,mod_eq_of_lt (by omega)]
    omega

/-- The entry lies in the window that begins at a time. -/
def Inside (b : Build) (start : ℕ) (x : Qentry β) : Prop :=
  x.time<b.period∧ahead b.period start x.time<b.period/2

variable {start : ℕ}

/-- In a window the entries come in the order of their distances from its beginning. -/
theorem timeLessThan_inside {x y : Qentry β} (hstart : start<b.period)
    (hx : Inside b start x) (hy : Inside b start y) :
    timeLessThan b x y=true↔ahead b.period start x.time<ahead b.period start y.time∨
      ahead b.period start x.time=ahead b.period start y.time∧x.id<y.id := by
  have hxp := hx.1
  have hyp := hy.1
  have hxw := hx.2
  have hyw := hy.2
  rw [timeLessThan_iff hxp hyp]
  rw [ahead] at hxw hyw
  rw [ahead,ahead,ahead]
  split at hxw <;> split at hyw <;> split <;> omega

/-- In a window the comparison is an order. -/
theorem orders (hstart : start<b.period) :
    Orders (timeLessThan b) fun x : Qentry β => Inside b start x := by
  constructor
  · intro x y hx hy hless
    rw [timeLessThan_inside hstart hx hy] at hless
    rw [Bool.eq_false_iff,ne_eq,timeLessThan_inside hstart hy hx]
    omega
  · intro x y z hx hy hz hxy hyz
    rw [Bool.eq_false_iff,ne_eq,timeLessThan_inside hstart hx hy] at hxy
    rw [Bool.eq_false_iff,ne_eq,timeLessThan_inside hstart hy hz] at hyz
    rw [Bool.eq_false_iff,ne_eq,timeLessThan_inside hstart hx hz]
    omega

theorem ahead_of_le {t u : ℕ} (hstart : start<b.period) (ht : t<b.period) (hu : u<b.period)
    (htw : ahead b.period start t<b.period/2) (huw : ahead b.period start u<b.period/2)
    (hle : ahead b.period start t≤ahead b.period start u) :
    ahead b.period t u=ahead b.period start u-ahead b.period start t := by
  unfold ahead at htw huw hle ⊢
  split_ifs at htw huw hle ⊢ <;> omega

/-! ## The queue keeps its heap -/

/-- A queue and its entries in push order. -/
structure Queued (b : Build) (heap : Heap β) (es : List (Qentry β)) : Prop where
  /-- The slots hold the entries. -/
  perm : heap.items.Perm es
  /-- No slot holds an entry that comes before the one above it. -/
  isHeap : IsHeap (timeLessThan b) heap.items
  /-- There are slots for all entries. -/
  room : es.length≤heap.alloc
  /-- The entries are numbered in push order. -/
  ids : es.Pairwise fun x y => x.id<y.id
  /-- The counter is past the numbers of the entries. -/
  counter : ∀ x∈es,x.id<heap.utimeqId
  /-- The counter is a machine word. -/
  word : heap.utimeqId<b.word
  /-- The entries lie in a window. -/
  inside : ∃ start,start<b.period∧∀ x∈es,Inside b start x

variable {heap : Heap β} {es : List (Qentry β)}

theorem queued_utimeqMakeNew {alloc utimeqId : ℕ}
    (hid : utimeqId<b.word) : Queued b (utimeqMakeNew alloc utimeqId : Heap β) [] where
  perm := List.Perm.refl _
  isHeap := fun i a c hi ha => nomatch ha
  room := zero_le _
  ids := List.Pairwise.nil
  counter := fun x hx => nomatch hx
  word := hid
  inside := ⟨0,b.pos,fun x hx => nomatch hx⟩

/-- A push into a free slot. -/
theorem Queued.push (h : Queued b heap es) {t : Task β} (hroom : heap.items.length<heap.alloc)
    (hfits : Fits b heap (.push t)) : ∃ x,x.toTask=t∧
      (modUtimeqHeappush b heap t).2=.done∧(modUtimeqHeappush b heap t).1.alloc=heap.alloc∧
      Queued b (modUtimeqHeappush b heap t).1 (es++[x]) := by
  obtain ⟨htime,hid,start,hstart,hwindow⟩ := hfits hroom
  have hword : t.time%b.word=t.time := mod_eq_of_lt (by have := b.fits; omega)
  obtain ⟨x,hx⟩ : ∃ x : Qentry β,x=⟨t,heap.utimeqId⟩ := ⟨_,rfl⟩
  have hinside : Inside b start x := by
    rw [hx]
    exact ⟨htime,hwindow t.time mem_cons_self⟩
  have hmem : ∀ y∈heap.items,Inside b start y := by
    intro y hy
    obtain ⟨start',_,hes⟩ := h.inside
    refine ⟨(hes y (h.perm.mem_iff.mp hy)).1,hwindow y.time (mem_cons_of_mem _ ?_)⟩
    exact mem_map.mpr ⟨y,hy,rfl⟩
  have hitems : (modUtimeqHeappush b heap t).1=
      {heap with
        items := BinaryHeap.push (timeLessThan b) heap.items x
        utimeqId := heap.utimeqId+1} := by
    rw [modUtimeqHeappush,if_neg (by omega)]
    dsimp only
    rw [hword,mod_eq_of_lt hid,heapSiftdown,List.getElem?_append_right (Nat.le_refl _),
      Nat.sub_self,BinaryHeap.push,hx]
    rfl
  refine ⟨x,?_,?_,?_,?_⟩
  · rw [hx]
  · rw [modUtimeqHeappush,if_neg (by omega)]
  · rw [hitems]
  · rw [hitems]
    constructor
    · exact (push_perm _ _ x).trans (h.perm.append_right [x])
    · exact push_isHeap (orders hstart) hmem hinside h.isHeap
    · have hlen := h.perm.length_eq
      rw [length_append,length_singleton]
      dsimp only
      omega
    · refine pairwise_append.mpr ⟨h.ids,pairwise_singleton _ _,fun y hy z hz => ?_⟩
      rw [mem_singleton.mp hz,hx]
      exact h.counter y hy
    · intro y hy
      cases mem_append.mp hy with
      | inl hy => exact lt_succ_of_lt (h.counter y hy)
      | inr hy =>
        rw [mem_singleton.mp hy,hx]
        exact lt_succ_self _
    · exact hid
    · refine ⟨start,hstart,fun y hy => ?_⟩
      cases mem_append.mp hy with
      | inl hy => exact hmem y (h.perm.mem_iff.mpr hy)
      | inr hy =>
        rw [mem_singleton.mp hy]
        exact hinside

/-- The first slot has the next task. -/
theorem Queued.serves (h : Queued b heap es) {x : Qentry β} {rest : List (Qentry β)}
    (hitems : heap.items=x::rest) : ∃ front back,es=front++x::back∧rest.Perm (front++back)∧
      Serves b.period (es.map (·.toTask)) x.toTask ((front++back).map (·.toTask)) := by
  have hxmem : x∈es := h.perm.mem_iff.mp (by rw [hitems]; exact mem_cons_self)
  obtain ⟨front,back,hes⟩ := append_of_mem hxmem
  obtain ⟨start,hstart,hinside⟩ := h.inside
  have hfirst : ∀ y∈es,timeLessThan b y x=false := by
    intro y hy
    obtain ⟨i,hi⟩ := mem_iff_getElem?.mp (h.perm.mem_iff.mpr hy)
    refine h.isHeap.first (orders hstart) (fun z hz => hinside z (h.perm.mem_iff.mp hz)) ?_ i y hi
    rw [hitems,List.getElem?_cons_zero]
  have hle : ∀ y∈es,¬(ahead b.period start y.time<ahead b.period start x.time∨
      ahead b.period start y.time=ahead b.period start x.time∧y.id<x.id) := by
    intro y hy hless
    rw [←timeLessThan_inside hstart (hinside y hy) (hinside x hxmem),hfirst y hy] at hless
    cases hless
  have hdist : ∀ y∈es,ahead b.period x.time y.time=
      ahead b.period start y.time-ahead b.period start x.time := by
    intro y hy
    have hyx := hle y hy
    exact ahead_of_le hstart (hinside x hxmem).1 (hinside y hy).1 (hinside x hxmem).2
      (hinside y hy).2 (by omega)
  have hids := h.ids
  rw [hes,pairwise_append] at hids
  refine ⟨front,back,hes,?_,front.map (·.toTask),back.map (·.toTask),?_,map_append,?_,?_⟩
  · have hperm := h.perm
    rw [hitems,hes] at hperm
    exact (hperm.trans perm_middle).cons_inv
  · rw [hes,map_append,map_cons]
  · intro u hu
    obtain ⟨y,hy,rfl⟩ := mem_map.mp hu
    have hmem : y∈es := by
      rw [hes]
      exact mem_append_left _ hy
    have hid := hids.2.2 y hy x mem_cons_self
    have hyx := hle y hmem
    have hwindow := (hinside y hmem).2
    rw [hdist y hmem]
    omega
  · intro u hu
    obtain ⟨y,hy,rfl⟩ := mem_map.mp hu
    have hmem : y∈es := by
      rw [hes]
      exact mem_append_right _ (mem_cons_of_mem _ hy)
    have hwindow := (hinside y hmem).2
    rw [hdist y hmem]
    omega

/-- A part of the entries, with the slots that hold it in order. -/
theorem Queued.sublist (h : Queued b heap es) {items : List (Qentry β)} {es' : List (Qentry β)}
    (hsub : es'.Sublist es) (hperm : items.Perm es') (hheap : IsHeap (timeLessThan b) items) :
    Queued b {heap with items := items} es' := by
  obtain ⟨start,hstart,hinside⟩ := h.inside
  exact ⟨hperm,hheap,Nat.le_trans hsub.length_le h.room,h.ids.sublist hsub,
    fun x hx => h.counter x (hsub.subset hx),h.word,start,hstart,
    fun x hx => hinside x (hsub.subset hx)⟩

/-- No entry is left. -/
theorem Queued.eq_nil (h : Queued b heap es) (hitems : heap.items=[]) : es=[] := by
  have hperm := h.perm
  rw [hitems] at hperm
  exact hperm.nil_eq.symm

/-! ## Runs -/

/-- A call does to the entries in push order what it does to a queue of tasks. -/
theorem Queued.call (h : Queued b heap es) {op : Op β} (hfits : Fits b heap op) :
    ∃ heap' out es',step b heap op=.ok (heap',out)∧heap'.alloc=heap.alloc∧
      Call b.period heap.alloc (es.map (·.toTask)) op out (es'.map (·.toTask))∧
      Queued b heap' es' := by
  have hlen := h.perm.length_eq
  cases op with
  | push t =>
    cases Nat.lt_or_eq_of_le h.room with
    | inl hroom =>
      obtain ⟨x,hx,hout,halloc,hpush⟩ := h.push (by omega) hfits
      refine ⟨_,.done,es++[x],congrArg Except.ok (Prod.ext rfl hout),halloc,?_,hpush⟩
      rw [←hx,map_append]
      exact .push _ (by rw [length_map]; exact hroom)
    | inr hfull =>
      have hpush : modUtimeqHeappush b heap t=(heap,.indexError "queue overflow") := by
        rw [modUtimeqHeappush,if_pos (by omega)]
      refine ⟨heap,_,es,congrArg Except.ok hpush,rfl,.overflow t ?_,h⟩
      rw [length_map]
      exact hfull
  | pop ret =>
    cases hitems : heap.items with
    | nil =>
      have hpop : modUtimeqHeappop b heap ret=(heap,.indexError "empty heap") := by
        rw [modUtimeqHeappop,hitems]
      have hnil := h.eq_nil hitems
      rw [hnil] at h
      rw [hnil]
      exact ⟨heap,_,[],congrArg Except.ok hpop,rfl,.popEmpty ret,h⟩
    | cons x rest =>
      obtain ⟨front,back,hes,hrest,hserves⟩ := h.serves hitems
      cases hret : ret.any (3≤·) with
      | false =>
        have hpop : modUtimeqHeappop b heap ret=(heap,.typeError) := by
          rw [modUtimeqHeappop,hitems,hret]
          rfl
        refine ⟨heap,_,es,congrArg Except.ok hpop,rfl,.popRefused ?_ fun len hl => ?_,h⟩
        · rw [hes,map_append,map_cons]
          exact append_ne_nil_of_right_ne_nil _ (cons_ne_nil _ _)
        · rw [hl,Option.any_some,decide_eq_false_iff_not] at hret
          exact Nat.lt_of_not_le hret
      | true =>
        obtain ⟨len,rfl,hlen3⟩ := (Option.any_eq_true _ _).mp hret
        have hlong := of_decide_eq_true hlen3
        have hpop : modUtimeqHeappop b heap (some len)=
            ({heap with items := removeFirst (timeLessThan b) heap.items},
              .task x.toTask) := by
          rw [modUtimeqHeappop,hitems,hret]
          rfl
        refine ⟨_,_,front++back,congrArg Except.ok hpop,rfl,.pop hlong hserves,?_⟩
        obtain ⟨start,hstart,hinside⟩ := h.inside
        refine h.sublist ?_ ?_ (removeFirst_isHeap (orders hstart) ?_ h.isHeap)
        · rw [hes]
          exact (sublist_cons_self x back).append_left front
        · rw [hitems]
          exact (removeFirst_perm _ x rest).trans hrest
        · exact fun y hy => hinside y (h.perm.mem_iff.mp hy)
  | peektime =>
    cases hitems : heap.items with
    | nil =>
      have hpeek : modUtimeqPeektime heap=.indexError "empty heap" := by
        rw [modUtimeqPeektime,hitems]
      have hnil := h.eq_nil hitems
      rw [hnil] at h
      rw [hnil]
      refine ⟨heap,_,[],rfl,rfl,?_,h⟩
      rw [hpeek]
      exact .peekEmpty
    | cons x rest =>
      obtain ⟨front,back,hes,hrest,hserves⟩ := h.serves hitems
      have hpeek : modUtimeqPeektime heap=.time x.time := by
        rw [modUtimeqPeektime,hitems]
      refine ⟨heap,_,es,rfl,rfl,?_,h⟩
      rw [hpeek]
      exact .peektime hserves
  | other =>
    refine ⟨_,_,es,rfl,rfl,.other,?_⟩
    exact ⟨h.perm,h.isHeap,h.room,h.ids,fun x hx => by
      have := h.counter x hx
      dsimp only
      rw [mod_eq_of_lt hfits]
      omega,mod_lt _ (zero_lt_of_lt h.word),h.inside⟩

/-- Every run that keeps its times in windows and does not wrap the counter is one of a
queue in push order, which the slots hold in the end. -/
theorem Queued.trace {ops : List (Op β)} : ∀ {heap : Heap β} {es : List (Qentry β)}
    {heap' : Heap β} {outs : List (Output β)},Queued b heap es →
    Throughout (step b) (Fits b) heap ops → run (step b) heap ops=.ok (heap',outs) →
    ∃ es',Trace b.period heap.alloc (es.map (·.toTask)) ops outs (es'.map (·.toTask))∧
      Queued b heap' es' := by
  induction ops with
  | nil =>
    intro heap es heap' outs h _ hrun
    cases hrun
    exact ⟨es,.nil,h⟩
  | cons op ops ih =>
    intro heap es heap' outs h hfits hrun
    obtain ⟨heap₁,out,outs,hstep,hrest,rfl⟩ := run_cons_eq_ok.mp hrun
    obtain ⟨heap₂,out',es₁,hstep',halloc,hcall,hqueued⟩ := h.call hfits.1
    rw [hstep] at hstep'
    cases hstep'
    obtain ⟨es₂,htrace,hlast⟩ := ih hqueued (hfits.2 _ _ hstep) hrest
    rw [halloc] at htrace
    exact ⟨es₂,.cons hcall htrace,hlast⟩

/-- What a call pushes and pops, with what stays queued. -/
theorem Call.perm {period alloc : ℕ} {q q' : List (Task β)} {op : Op β} {out : Output β}
    (h : Call period alloc q op out q') :
    (q++pushed [op] [out]).Perm (popped [out]++q') := by
  cases h with
  | push t hroom => exact List.Perm.refl _
  | overflow t hfull => exact List.Perm.of_eq (append_nil q)
  | pop hlen hserves =>
    obtain ⟨front,back,rfl,rfl,_⟩ := hserves
    exact (List.Perm.of_eq (append_nil _)).trans perm_middle
  | popEmpty ret => exact List.Perm.refl _
  | popRefused hne hret => exact List.Perm.of_eq (append_nil q)
  | peektime hserves => exact List.Perm.of_eq (append_nil q)
  | peekEmpty => exact List.Perm.refl _
  | other => exact List.Perm.of_eq (append_nil q)

/-- A call comes before the ones after it. -/
theorem pushed_cons (op : Op β) (out : Output β) (ops : List (Op β)) (outs : List (Output β)) :
    pushed (op::ops) (out::outs)=pushed [op] [out]++pushed ops outs := by
  rw [pushed,pushed,pushed,zip_cons_cons,←singleton_append,filterMap_append]
  rfl

/-- An output comes before the ones after it. -/
theorem popped_cons (out : Output β) (outs : List (Output β)) :
    popped (out::outs)=popped [out]++popped outs := by
  rw [popped,popped,popped,←singleton_append,filterMap_append]

/-- What has been queued is what has been taken away and what is still queued, as often as
it was pushed. -/
theorem Trace.perm {period alloc : ℕ} {q q' : List (Task β)} {ops : List (Op β)}
    {outs : List (Output β)} (h : Trace period alloc q ops outs q') :
    (q++pushed ops outs).Perm (popped outs++q') := by
  induction h with
  | nil => exact List.Perm.of_eq (append_nil _)
  | @cons q q' q'' op out ops outs hcall htrace ih =>
    rw [pushed_cons,popped_cons,←append_assoc]
    have hfirst := hcall.perm.append_right (pushed ops outs)
    rw [append_assoc] at hfirst
    have hrest := ih.append_left (popped [out])
    rw [←append_assoc,←append_assoc] at hrest
    rw [append_assoc]
    exact hfirst.trans hrest

/-- Every run of pushes and pops on a new queue, whose times are ticks that lie in a window
shorter than half the period at any moment and which does not wrap the counter of pushes,
gives and keeps what a queue in push order does: each pop gives the task with the earliest
time on the ring, the first one pushed where times are equal, and every task that was
pushed has been popped once or is still queued. -/
theorem run_traces (b : Build) (alloc utimeqId : ℕ)
    (hid : utimeqId<b.word) (ops : List (Op β)) (heap : Heap β) (outs : List (Output β))
    (hfits : Throughout (step b) (Fits b) (utimeqMakeNew alloc utimeqId) ops)
    (hrun : run (step b) (utimeqMakeNew alloc utimeqId) ops=.ok (heap,outs)) :
    ∃ q,Trace b.period alloc [] ops outs q∧(heap.items.map (·.toTask)).Perm q∧
      (pushed ops outs).Perm (popped outs++q) := by
  obtain ⟨es,htrace,hqueued⟩ := (queued_utimeqMakeNew hid).trace hfits hrun
  exact ⟨es.map fun x : Qentry β => x.toTask,htrace,hqueued.perm.map _,htrace.perm⟩

/-- Three pushes across the wrap, two of them for the same time, and two pops. -/
theorem run_traces_wrap : ∃ q,Trace 1073741824 3 []
      [.push ⟨2,'a','x'⟩,.push ⟨1073741823,'b','x'⟩,.push ⟨2,'c','x'⟩,.pop (some 3),.pop (some 3)]
      [.done,.done,.done,.task ⟨1073741823,'b','x'⟩,.task ⟨2,'a','x'⟩] q∧
    [(⟨2,'c','x'⟩ : Task Char)].Perm q∧
    [(⟨2,'a','x'⟩ : Task Char),⟨1073741823,'b','x'⟩,⟨2,'c','x'⟩].Perm
      ([⟨1073741823,'b','x'⟩,⟨2,'a','x'⟩]++q) := by
  have hrun : run (step Build.word32) (utimeqMakeNew 3 0)
      [.push ⟨2,'a','x'⟩,.push ⟨1073741823,'b','x'⟩,.push ⟨2,'c','x'⟩,.pop (some 3),.pop (some 3)]=
      .ok (⟨3,[⟨⟨2,'c','x'⟩,2⟩],3⟩,
        [.done,.done,.done,.task ⟨1073741823,'b','x'⟩,.task ⟨2,'a','x'⟩]) := by
    decide +kernel
  have hfits : Throughout (step Build.word32) (Fits Build.word32) (utimeqMakeNew 3 0)
      [.push ⟨2,'a','x'⟩,.push ⟨1073741823,'b','x'⟩,.push ⟨2,'c','x'⟩,.pop (some 3),
        .pop (some 3)] := by
    refine (throughout_cons (t:=⟨3,[⟨⟨2,'a','x'⟩,0⟩],1⟩) (o:=.done) (by decide +kernel)).mpr
      ⟨fun _ => ⟨by decide,by decide,1073741823,by decide,by decide⟩,?_⟩
    refine (throughout_cons (t:=⟨3,[⟨⟨1073741823,'b','x'⟩,1⟩,⟨⟨2,'a','x'⟩,0⟩],2⟩) (o:=.done)
      (by decide +kernel)).mpr ⟨fun _ => ⟨by decide,by decide,1073741823,by decide,by decide⟩,?_⟩
    exact ⟨fun _ => ⟨by decide,by decide,1073741823,by decide,by decide⟩,
      fun _ _ _ => ⟨trivial,fun _ _ _ => ⟨trivial,fun _ _ _ => trivial⟩⟩⟩
  exact run_traces Build.word32 3 0 (by decide) _ _ _ hfits hrun

end MicroPython.Utimeq
