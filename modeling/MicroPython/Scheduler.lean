import Mathlib.Data.List.Perm.Basic
import Mathlib.Data.Int.Notation
import MicroPython.InputMachine

/-!
# The scheduler

`py/scheduler.c` keeps one number for the depth of locking and for whether there is
work. Its functions change it in atomic sections, but `mp_handle_pending` looks at it
before its section begins and `mp_keyboard_interrupt` has no section at all. The steps
here are the pieces between which another context may come in.
-/

namespace MicroPython.Scheduler

open Nat InputMachine

/-- `mp_sched_item_t`. -/
structure Item where
  func : ℕ
  arg : ℕ
deriving DecidableEq

/-- `MP_SCHED_IDLE`. -/
def schedIdle : ℤ := 1

/-- `MP_SCHED_LOCKED`. -/
def schedLocked : ℤ := -1

/-- `MP_SCHED_PENDING`. -/
def schedPending : ℤ := 0

/-- A number stored in an `int16_t`. -/
def int16 (x : ℤ) : ℤ := x.bmod 65536

/-- The state of the virtual machine that the scheduler uses. -/
structure Vm where
  /-- `sched_state`. -/
  schedState : ℤ
  /-- The items of `sched_stack` below `sched_sp`, the last one first. -/
  schedStack : List Item
  /-- `mp_pending_exception`. -/
  mpPendingException : Option ℕ

/-- `mp_sched_num_pending`. -/
def mpSchedNumPending (vm : Vm) : ℕ := vm.schedStack.length

/-- `mp_init`. -/
def mpInit : Vm where
  schedState := schedIdle
  schedStack := []
  mpPendingException := none

/-- `mp_sched_lock`. -/
def mpSchedLock (vm : Vm) : Vm :=
  if vm.schedState<0 then {vm with schedState := int16 (vm.schedState-1)}
  else {vm with schedState := schedLocked}

/-- `mp_sched_unlock`. -/
def mpSchedUnlock (vm : Vm) : Vm :=
  if int16 (vm.schedState+1)=0 then
    if vm.mpPendingException≠none∨mpSchedNumPending vm≠0 then
      {vm with schedState := schedPending}
    else {vm with schedState := schedIdle}
  else {vm with schedState := int16 (vm.schedState+1)}

/-- `mp_sched_schedule` with the depth of the stack. -/
def mpSchedSchedule (schedulerDepth : ℕ) (vm : Vm) (item : Item) : Vm×Bool :=
  if vm.schedStack.length < schedulerDepth then
    ({vm with
      schedState := if vm.schedState=schedIdle then schedPending else vm.schedState
      schedStack := item::vm.schedStack},true)
  else (vm,false)

/-- What the section of `mp_handle_pending` goes on with. -/
inductive Handled
  | raised (obj : ℕ)
  /-- The tail calls the item, if there is one, and unlocks afterwards. -/
  | tail (item : Option Item)

/-- The section at the beginning of `mp_handle_pending_tail`. -/
def mpHandlePendingTail (vm : Vm) : Vm×Handled :=
  match vm.schedStack with
  | [] => ({vm with schedState := schedLocked},.tail none)
  | item::rest =>
    ({vm with
      schedState := schedLocked
      schedStack := rest},.tail (some item))

/-- `mp_handle_pending` from the beginning of its section. -/
def handlePendingSection (vm : Vm) : Vm×Handled :=
  match vm.mpPendingException with
  | some obj =>
    ({vm with
      mpPendingException := none
      schedState := if mpSchedNumPending vm=0 then schedIdle else vm.schedState},.raised obj)
  | none => mpHandlePendingTail vm

/-- The machine and how far the contexts that use the scheduler have come. -/
structure System where
  /-- The machine. -/
  vm : Vm
  /-- The calls of `mp_sched_lock` that are not undone yet. -/
  holders : ℕ
  /-- The contexts in `mp_handle_pending` between its test and its section. -/
  checked : ℕ
  /-- The contexts in `mp_handle_pending_tail` between its section and its unlock. -/
  tails : ℕ
  /-- The contexts in `mp_keyboard_interrupt` after the exception is stored. -/
  stored : ℕ
  /-- The contexts in `mp_keyboard_interrupt` that have found the state idle. -/
  tested : ℕ
  accepted : List Item
  called : List Item

/-- The system at the start. -/
def start : System where
  vm := mpInit
  holders := 0
  checked := 0
  tails := 0
  stored := 0
  tested := 0
  accepted := []
  called := []

/-- A piece of one of the functions. -/
inductive Step
  /-- `mp_sched_schedule`. -/
  | schedule (item : Item)
  /-- `mp_sched_lock`. -/
  | lock
  /-- `mp_sched_unlock` by a context that has locked. -/
  | unlock
  /-- The test of `mp_handle_pending`. -/
  | check
  /-- The section of `mp_handle_pending`. -/
  | enter
  /-- The callback of a tail returns and the tail unlocks. -/
  | leave
  /-- `mp_keyboard_interrupt` stores the exception. -/
  | storeException (obj : ℕ)
  /-- `mp_keyboard_interrupt` tests the state. -/
  | testIdle
  /-- `mp_keyboard_interrupt` stores the state. -/
  | storePending

/-- What a step shows. -/
inductive Output
  /-- The answer of `mp_sched_schedule`. -/
  | answer (ret : Bool)
  | call (item : Item)
  | raise (obj : ℕ)
  | silent

/-- No context stands where the step begins. -/
structure NotThere

/-- `mp_sched_schedule` in the system. -/
def stepSchedule (schedulerDepth : ℕ) (s : System) (item : Item) : System×Output :=
  ({s with
    vm := (mpSchedSchedule schedulerDepth s.vm item).1
    accepted := if (mpSchedSchedule schedulerDepth s.vm item).2 then item::s.accepted
      else s.accepted},.answer (mpSchedSchedule schedulerDepth s.vm item).2)

/-- The section of `mp_handle_pending` in the system. -/
def stepEnter (s : System) : System×Output :=
  match (handlePendingSection s.vm).2 with
  | .raised obj =>
    ({s with
      vm := (handlePendingSection s.vm).1
      checked := s.checked-1},.raise obj)
  | .tail none =>
    ({s with
      vm := (handlePendingSection s.vm).1
      checked := s.checked-1
      tails := s.tails+1},.silent)
  | .tail (some item) =>
    ({s with
      vm := (handlePendingSection s.vm).1
      checked := s.checked-1
      tails := s.tails+1
      called := item::s.called},.call item)

/-- A step of the system. -/
def step (schedulerDepth : ℕ) (s : System) : Step→Except NotThere (System×Output)
  | .schedule item => .ok (stepSchedule schedulerDepth s item)
  | .lock => .ok ({s with
      vm := mpSchedLock s.vm
      holders := s.holders+1},.silent)
  | .unlock =>
    if s.holders=0 then .error ⟨⟩
    else .ok ({s with
      vm := mpSchedUnlock s.vm
      holders := s.holders-1},.silent)
  | .check =>
    if s.vm.schedState=schedPending then .ok ({s with checked := s.checked+1},.silent)
    else .ok (s,.silent)
  | .enter => if s.checked=0 then .error ⟨⟩ else .ok (stepEnter s)
  | .leave =>
    if s.tails=0 then .error ⟨⟩
    else .ok ({s with
      vm := mpSchedUnlock s.vm
      tails := s.tails-1},.silent)
  | .storeException obj => .ok ({s with
      vm := {s.vm with mpPendingException := some obj}
      stored := s.stored+1},.silent)
  | .testIdle =>
    if s.stored=0 then .error ⟨⟩
    else if s.vm.schedState=schedIdle then .ok ({s with
      stored := s.stored-1
      tested := s.tested+1},.silent)
    else .ok ({s with stored := s.stored-1},.silent)
  | .storePending =>
    if s.tested=0 then .error ⟨⟩
    else .ok ({s with
      vm := {s.vm with schedState := schedPending}
      tested := s.tested-1},.silent)

/-- The locks that are held, those of tails included. -/
def System.locks (s : System) : ℕ := s.holders+s.tails

/-- What is promised of every state: each accepted item is queued or has been called, once
in all, and an idle scheduler has no work, except for an exception that a context is
about to announce. -/
structure Orderly (s : System) : Prop where
  /-- Each accepted item is queued or has been called. -/
  accounted : s.accepted.Perm (s.vm.schedStack++s.called)
  noCallback : s.vm.schedState=schedIdle → s.vm.schedStack=[]
  noException : s.vm.schedState=schedIdle → s.vm.mpPendingException≠none→0 < s.stored+s.tested

/-- What is promised of every step: a call to schedule is refused exactly when the queue is
full, and no callback starts while the scheduler is locked. -/
def Proper (schedulerDepth : ℕ) (s : System) : Output→Prop
  | .answer ret => ret=false↔s.vm.schedStack.length=schedulerDepth
  | .call _ => s.locks=0
  | .raise _ => True
  | .silent => True

/-- A step does what is promised. -/
def Keeps (schedulerDepth : ℕ) (s : System) (i : Step) : Prop :=
  Orderly s∧∀ t o,step schedulerDepth s i=.ok (t,o)→Proper schedulerDepth s o∧Orderly t

/-- The scheduler is not locked where a function goes on with what it has found out before,
and the depth of locking fits its type. -/
def Undisturbed (s : System) : Step→Prop
  | .enter => ¬s.vm.schedState<0
  | .storePending => ¬s.vm.schedState<0
  | .lock => s.vm.schedState≠-32768
  | _ => True

/-- Whether a step is disturbed can be computed. -/
instance (s : System) : (i : Step)→Decidable (Undisturbed s i)
  | .enter => inferInstanceAs (Decidable (¬s.vm.schedState<0))
  | .storePending => inferInstanceAs (Decidable (¬s.vm.schedState<0))
  | .lock => inferInstanceAs (Decidable (s.vm.schedState≠-32768))
  | .schedule _ => .isTrue trivial
  | .unlock => .isTrue trivial
  | .check => .isTrue trivial
  | .leave => .isTrue trivial
  | .storeException _ => .isTrue trivial
  | .testIdle => .isTrue trivial

/-- What holds at every state of a run that nothing disturbs. -/
structure Inv (schedulerDepth : ℕ) (s : System) : Prop where
  /-- Each accepted item is queued or has been called. -/
  accounted : s.accepted.Perm (s.vm.schedStack++s.called)
  /-- The queue has room for its items. -/
  room : s.vm.schedStack.length ≤ schedulerDepth
  locked : s.locks≠0 → s.vm.schedState=-(s.locks : ℤ)
  /-- Without locks the state tells whether there is work. -/
  unlocked : s.locks=0 → s.vm.schedState=schedPending∨(s.vm.schedState=schedIdle∧
    s.vm.schedStack=[]∧(s.vm.mpPendingException≠none→0 < s.stored+s.tested))
  fits : s.locks ≤ 32768

variable {schedulerDepth : ℕ} {s : System}

theorem Inv.neg_iff (h : Inv schedulerDepth s) : s.vm.schedState<0↔s.locks≠0 := by
  by_cases hlocks : s.locks=0
  · rcases h.unlocked hlocks with hp | ⟨hi,_,_⟩
    · rw [hp,schedPending]
      exact ⟨fun hlt => absurd hlt (Int.lt_irrefl 0),fun hne => absurd hlocks hne⟩
    · rw [hi,schedIdle]
      exact ⟨fun hlt => absurd hlt (by decide),fun hne => absurd hlocks hne⟩
  · rw [h.locked hlocks]
    exact ⟨fun _ => hlocks,fun _ => by omega⟩

theorem Inv.idle (h : Inv schedulerDepth s) (hidle : s.vm.schedState=schedIdle) :
    s.locks=0∧s.vm.schedStack=[]∧(s.vm.mpPendingException≠none→0 < s.stored+s.tested) := by
  have hlocks : s.locks=0 := by
    by_contra hne
    have hneg := h.neg_iff.mpr hne
    rw [hidle,schedIdle] at hneg
    exact absurd hneg (by decide)
  rcases h.unlocked hlocks with hp | ⟨_,hstack,hexc⟩
  · rw [hidle,schedIdle,schedPending] at hp
    exact absurd hp (by decide)
  · exact ⟨hlocks,hstack,hexc⟩

theorem Inv.orderly (h : Inv schedulerDepth s) : Orderly s where
  accounted := h.accounted
  noCallback := fun hidle => (h.idle hidle).2.1
  noException := fun hidle => (h.idle hidle).2.2

theorem inv_start (schedulerDepth : ℕ) : Inv schedulerDepth start where
  accounted := List.Perm.refl _
  room := zero_le _
  locked := fun h => absurd rfl h
  unlocked := fun _ => .inr ⟨rfl,rfl,fun h => absurd rfl h⟩
  fits := zero_le _

/-- Small numbers keep their value in an `int16_t`. -/
theorem int16_of_bounds {x : ℤ} (hlow : -32768 ≤ x) (hhigh : x<32768) : int16 x=x := by
  refine Int.bmod_eq_of_le_mul_two ?_ ?_
  · omega
  · omega

/-- The machine after a lock, when the depth fits. -/
theorem mpSchedLock_eq (vm : Vm) (hlow : -32768<vm.schedState) :
    mpSchedLock vm={vm with
      schedState := if vm.schedState<0 then vm.schedState-1 else schedLocked} := by
  rw [mpSchedLock]
  split
  case isTrue hneg => rw [int16_of_bounds (by omega) (by omega)]
  · rfl

/-- One lock more. -/
theorem inv_lock (h : Inv schedulerDepth s) (hfit : s.vm.schedState≠-32768) :
    Inv schedulerDepth {s with
      vm := mpSchedLock s.vm
      holders := s.holders+1} := by
  have hneg := h.neg_iff
  have hfits := h.fits
  have hlocks : System.locks {s with
      vm := mpSchedLock s.vm
      holders := s.holders+1}=s.locks+1 := Nat.add_right_comm ..
  have hlow : -32768 < s.vm.schedState∧s.locks<32768 := by
    by_cases hzero : s.locks=0
    · omega
    · have hstate := h.locked hzero
      omega
  have hstate : (mpSchedLock s.vm).schedState=-((s.locks+1 : ℕ) : ℤ) := by
    rw [mpSchedLock_eq _ hlow.1]
    by_cases hzero : s.locks=0
    · rw [if_neg (mt hneg.mp (not_not.mpr hzero)),hzero]
      rfl
    · have hold := h.locked hzero
      show (if s.vm.schedState<0 then s.vm.schedState-1 else schedLocked)=_
      rw [if_pos (hneg.mpr hzero),hold]
      omega
  have hrest : (mpSchedLock s.vm).schedStack=s.vm.schedStack := by
    rw [mpSchedLock_eq _ hlow.1]
  refine ⟨?_,?_,fun _ => ?_,fun hzero => ?_,?_⟩
  · show s.accepted.Perm ((mpSchedLock s.vm).schedStack++s.called)
    rw [hrest]
    exact h.accounted
  · show (mpSchedLock s.vm).schedStack.length ≤ schedulerDepth
    rw [hrest]
    exact h.room
  · rw [hlocks]
    exact hstate
  · rw [hlocks] at hzero
    exact absurd hzero (succ_ne_zero _)
  · rw [hlocks]
    exact hlow.2

/-- The machine after an unlock of a scheduler with locks. -/
theorem mpSchedUnlock_eq (vm : Vm) {locks : ℕ} (hstate : vm.schedState=-((locks+1 : ℕ) : ℤ))
    (hfits : locks+1 ≤ 32768) :
    mpSchedUnlock vm={vm with
      schedState :=
        if locks=0 then
          if vm.mpPendingException≠none∨mpSchedNumPending vm≠0 then schedPending
          else schedIdle
        else -(locks : ℤ)} := by
  have hnext : int16 (vm.schedState+1)=-(locks : ℤ) := by
    rw [int16_of_bounds (by omega) (by omega)]
    omega
  rw [mpSchedUnlock,hnext]
  by_cases hzero : locks=0
  · rw [if_pos hzero,if_pos (by omega)]
    split
    · rfl
    · rfl
  · rw [if_neg hzero,if_neg (by omega)]

/-- One lock less, whoever holds it. -/
theorem inv_unlock (h : Inv schedulerDepth s) {holders tails : ℕ}
    (hless : holders+tails+1=s.locks) :
    Inv schedulerDepth {s with
      vm := mpSchedUnlock s.vm
      holders := holders
      tails := tails} := by
  have hfits := h.fits
  have hstate := h.locked (by omega)
  rw [←hless] at hstate hfits
  rw [mpSchedUnlock_eq s.vm hstate hfits]
  refine ⟨h.accounted,h.room,fun hne => ?_,fun hzero => ?_,?_⟩
  · exact if_neg hne
  · show (if holders+tails=0 then _ else _)=_∨(if holders+tails=0 then _ else _)=_∧_
    have hnone : holders+tails=0 := hzero
    rw [if_pos hnone]
    split
    case isTrue => exact .inl rfl
    case isFalse hwork =>
      obtain ⟨hexc,hnum⟩ := not_or.mp hwork
      exact .inr ⟨rfl,List.length_eq_zero_iff.mp (not_not.mp hnum),fun hne => absurd hne hexc⟩
  · exact le_of_succ_le hfits

/-- A call to schedule. -/
theorem inv_schedule (h : Inv schedulerDepth s) (item : Item) :
    Inv schedulerDepth (stepSchedule schedulerDepth s item).1 := by
  rw [stepSchedule,mpSchedSchedule]
  by_cases hroom : s.vm.schedStack.length < schedulerDepth
  · rw [if_pos hroom]
    refine ⟨h.accounted.cons item,hroom,fun hlocks => ?_,fun hlocks => ?_,h.fits⟩
    · have hstate := h.locked hlocks
      have hbusy : s.vm.schedState≠schedIdle := fun hidle => hlocks (h.idle hidle).1
      exact (if_neg hbusy).trans hstate
    · rcases h.unlocked hlocks with hpending | ⟨hidle,_,_⟩
      · refine .inl ((if_neg ?_).trans hpending)
        rw [hpending]
        decide
      · exact .inl (if_pos hidle)
  · rw [if_neg hroom]
    exact h

/-- A call to schedule is refused when the queue is full. -/
theorem proper_schedule (h : Inv schedulerDepth s) (item : Item) :
    Proper schedulerDepth s (stepSchedule schedulerDepth s item).2 := by
  have hle := h.room
  rw [stepSchedule,mpSchedSchedule]
  by_cases hroom : s.vm.schedStack.length < schedulerDepth
  · rw [if_pos hroom]
    exact ⟨fun hret => Bool.noConfusion hret,fun heq => absurd heq (Nat.ne_of_lt hroom)⟩
  · rw [if_neg hroom]
    exact ⟨fun _ => by omega,fun _ => rfl⟩

theorem inv_tail {t : System} (haccounted : t.accepted.Perm (t.vm.schedStack++t.called))
    (hroom : t.vm.schedStack.length ≤ schedulerDepth) (hstate : t.vm.schedState=schedLocked)
    (hlocks : t.locks=1) : Inv schedulerDepth t where
  accounted := haccounted
  room := hroom
  locked := fun _ => by rw [hstate,hlocks]; rfl
  unlocked := fun hzero => absurd (hlocks.symm.trans hzero) (by decide)
  fits := hlocks ▸ (by decide)

theorem stepEnter_some {obj : ℕ} (hexc : s.vm.mpPendingException=some obj) :
    stepEnter s=({s with
      vm := {s.vm with
        mpPendingException := none
        schedState := if mpSchedNumPending s.vm=0 then schedIdle else s.vm.schedState}
      checked := s.checked-1},.raise obj) := by
  rw [stepEnter,handlePendingSection,hexc]

/-- A tail with nothing to call. -/
theorem stepEnter_nil (hexc : s.vm.mpPendingException=none) (hstack : s.vm.schedStack=[]) :
    stepEnter s=({s with
      vm := {s.vm with schedState := schedLocked}
      checked := s.checked-1
      tails := s.tails+1},.silent) := by
  rw [stepEnter,handlePendingSection,hexc]
  dsimp only
  rw [mpHandlePendingTail,hstack]

theorem stepEnter_cons {item : Item} {rest : List Item} (hexc : s.vm.mpPendingException=none)
    (hstack : s.vm.schedStack=item::rest) :
    stepEnter s=({s with
      vm := {s.vm with
        schedState := schedLocked
        schedStack := rest}
      checked := s.checked-1
      tails := s.tails+1
      called := item::s.called},.call item) := by
  rw [stepEnter,handlePendingSection,hexc]
  rw [mpHandlePendingTail,hstack]

/-- The section of `mp_handle_pending` when the scheduler is not locked. -/
theorem inv_enter (h : Inv schedulerDepth s) (hlocks : s.locks=0) :
    Inv schedulerDepth (stepEnter s).1 := by
  have haccounted := h.accounted
  have hroom := h.room
  have htail : s.holders+(s.tails+1)=1 := congrArg Nat.succ hlocks
  cases hexc : s.vm.mpPendingException with
  | some obj =>
    rw [stepEnter_some hexc]
    refine ⟨haccounted,hroom,fun hne => absurd hlocks hne,fun _ => ?_,h.fits⟩
    show (if _ then _ else _)=_∨(if _ then _ else _)=_∧_
    by_cases hnum : mpSchedNumPending s.vm=0
    · rw [if_pos hnum]
      exact .inr ⟨rfl,List.length_eq_zero_iff.mp hnum,fun hne => absurd rfl hne⟩
    · rw [if_neg hnum]
      rcases h.unlocked hlocks with hpending | ⟨_,hstack,_⟩
      · exact .inl hpending
      · exact absurd (congrArg List.length hstack) hnum
  | none =>
    cases hstack : s.vm.schedStack with
    | nil =>
      rw [stepEnter_nil hexc hstack]
      exact inv_tail haccounted hroom rfl htail
    | cons item rest =>
      rw [stepEnter_cons hexc hstack]
      rw [hstack] at haccounted hroom
      exact inv_tail (haccounted.trans List.perm_middle.symm) (le_of_succ_le hroom) rfl htail

/-- Nothing is called by that section while the scheduler is locked. -/
theorem proper_enter (hlocks : s.locks=0) : Proper schedulerDepth s (stepEnter s).2 := by
  rw [stepEnter]
  split
  · trivial
  · trivial
  · exact hlocks

/-- What a step does to the machine leaves the queue and the state alone. -/
theorem inv_of_same {t : System} (h : Inv schedulerDepth s)
    (hstack : t.vm.schedStack=s.vm.schedStack) (hstate : t.vm.schedState=s.vm.schedState)
    (haccepted : t.accepted=s.accepted) (hcalled : t.called=s.called)
    (hlocks : t.locks=s.locks)
    (hexc : s.vm.schedState=schedIdle → t.vm.mpPendingException≠none→0<t.stored+t.tested) :
    Inv schedulerDepth t where
  accounted := by
    rw [haccepted,hstack,hcalled]
    exact h.accounted
  room := hstack ▸ h.room
  locked := by
    rw [hlocks,hstate]
    exact h.locked
  unlocked := by
    rw [hlocks,hstate,hstack]
    intro hzero
    rcases h.unlocked hzero with hpending | ⟨hidle,hempty,_⟩
    · exact .inl hpending
    · exact .inr ⟨hidle,hempty,hexc hidle⟩
  fits := hlocks ▸ h.fits

/-- The store of `mp_keyboard_interrupt` when the scheduler is not locked. -/
theorem inv_storePending (h : Inv schedulerDepth s) (hlocks : s.locks=0) :
    Inv schedulerDepth {s with
      vm := {s.vm with schedState := schedPending}
      tested := s.tested-1} where
  accounted := h.accounted
  room := h.room
  locked := fun hne => absurd hlocks hne
  unlocked := fun _ => .inl rfl
  fits := h.fits

/-- What a step keeps that nothing disturbs, and what it promises. -/
theorem step_keeps (h : Inv schedulerDepth s) {i : Step} (hfree : Undisturbed s i) {t : System}
    {o : Output} (hok : step schedulerDepth s i=.ok (t,o)) :
    Proper schedulerDepth s o∧Inv schedulerDepth t := by
  have hneg := h.neg_iff
  cases i with
  | schedule item =>
    cases hok
    exact ⟨proper_schedule h item,inv_schedule h item⟩
  | lock =>
    cases hok
    exact ⟨trivial,inv_lock h hfree⟩
  | unlock =>
    rw [step] at hok
    split at hok
    · cases hok
    case isFalse hholders =>
      cases hok
      have hless : s.holders-1+s.tails+1=s.holders+s.tails := by omega
      exact ⟨trivial,inv_unlock h hless⟩
  | check =>
    rw [step] at hok
    split at hok
    · cases hok
      exact ⟨trivial,inv_of_same h rfl rfl rfl rfl rfl fun hidle => (h.idle hidle).2.2⟩
    · cases hok
      exact ⟨trivial,h⟩
  | enter =>
    have hlocks : s.locks=0 := not_not.mp (mt hneg.mpr hfree)
    rw [step] at hok
    split at hok
    · cases hok
    · have heq := Except.ok.inj hok
      have hproper := @proper_enter schedulerDepth s hlocks
      have hinv := inv_enter h hlocks
      rw [heq] at hproper hinv
      exact ⟨hproper,hinv⟩
  | leave =>
    rw [step] at hok
    split at hok
    · cases hok
    case isFalse htails =>
      cases hok
      have hless : s.holders+(s.tails-1)+1=s.holders+s.tails := by omega
      exact ⟨trivial,inv_unlock h hless⟩
  | storeException obj =>
    cases hok
    exact ⟨trivial,inv_of_same h rfl rfl rfl rfl rfl fun _ _ =>
      Nat.add_pos_left (Nat.succ_pos _) _⟩
  | testIdle =>
    rw [step] at hok
    split at hok
    · cases hok
    · split at hok
      · cases hok
        exact ⟨trivial,inv_of_same h rfl rfl rfl rfl rfl fun _ _ => Nat.succ_pos _⟩
      case isFalse hbusy =>
        cases hok
        exact ⟨trivial,inv_of_same h rfl rfl rfl rfl rfl fun hidle => absurd hidle hbusy⟩
  | storePending =>
    have hlocks : s.locks=0 := not_not.mp (mt hneg.mpr hfree)
    rw [step] at hok
    split at hok
    · cases hok
    · cases hok
      exact ⟨trivial,inv_storePending h hlocks⟩

/-- As long as the scheduler is not locked where a function goes on with what it has found
out before, every step of a run does what is promised. -/
theorem undisturbed_keeps (schedulerDepth : ℕ) (ops : List Step)
    (h : Throughout (step schedulerDepth) Undisturbed start ops) :
    Throughout (step schedulerDepth) (Keeps schedulerDepth) start ops := by
  refine @throughout_imp _ _ _ _ (step schedulerDepth) (Inv schedulerDepth) Undisturbed
    (Keeps schedulerDepth) (fun s i t o hinv hfree hok => ?_) (fun s i hinv hfree => ?_) ops start
    (inv_start schedulerDepth) h
  · exact (step_keeps hinv hfree hok).2
  · refine ⟨hinv.orderly,fun t o hok => ?_⟩
    have hkeeps := step_keeps hinv hfree hok
    exact ⟨hkeeps.1,hkeeps.2.orderly⟩

/-- An exception is announced while nothing is locked, and raised in front of a callback. -/
theorem undisturbed_keeps_callback :
    Throughout (step 4) (Keeps 4) start [.storeException 7,.testIdle,.storePending,
      .schedule ⟨1,2⟩,.check,.enter,.lock] := by
  refine undisturbed_keeps 4 _ ?_
  refine (throughout_cons rfl).mpr ⟨trivial,?_⟩
  refine (throughout_cons rfl).mpr ⟨trivial,?_⟩
  refine (throughout_cons rfl).mpr ⟨by decide,?_⟩
  refine (throughout_cons rfl).mpr ⟨trivial,?_⟩
  refine (throughout_cons rfl).mpr ⟨trivial,?_⟩
  refine (throughout_cons rfl).mpr ⟨by decide,?_⟩
  exact (throughout_cons rfl).mpr ⟨by decide,trivial⟩

/-- Between the test and the store of an interrupt the scheduler is locked. The store undoes
the lock, and the callback is called while the scheduler is locked. -/
def lostLock : List Step :=
  [.storeException 7,.testIdle,.lock,.storePending,.check,.enter,.schedule ⟨1,2⟩,.check]

/-- The lock is lost and the callback runs. -/
theorem not_throughout_keeps : ¬∀ (schedulerDepth : ℕ) (ops : List Step),
      Throughout (step schedulerDepth) (Keeps schedulerDepth) start ops := by
  intro h
  have hall := h 4 (lostLock++[.enter])
  have hrun : ∃ t os,run (step 4) start lostLock=.ok (t,os)∧t.locks=1∧
      ∃ u,step 4 t .enter=.ok (u,.call ⟨1,2⟩) := ⟨_,_,rfl,rfl,_,rfl⟩
  obtain ⟨t,os,hok,hlocks,u,hcall⟩ := hrun
  have hkeeps := (throughout_at hall hok).2 u _ hcall
  have hnone : t.locks=0 := hkeeps.1
  rw [hlocks] at hnone
  exact absurd hnone (by decide)

end MicroPython.Scheduler
