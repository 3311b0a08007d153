import MicroPython.EventMechanism

/-!
# The places of the event table

A trigger goes through the table place by place. What it does at a place depends on
the event there, on the flag of the place and on whether the table is full, and it
changes nothing at the other places.
-/

namespace MicroPython.EventPlaces

open EventMechanism InputMachine

/-- What stands at a place of the table. -/
structure Place where
  event : Option EveSingle
  /-- The flag of light and sound. -/
  flag : Bool
  full : Bool

/-- The place with an index. -/
def place (st : State) (i : ℕ) : Option Place :=
  if h : i < codeyEveMaxNum then
    some ⟨st.codeyEveSingle.get ⟨i,h⟩,st.lightSoundTriggerdFlag.get ⟨i,h⟩,
      decide (codeyEveMaxNum ≤ st.codeyEveId)⟩
  else none

/-- The check of an event: the flag and the answer. -/
def check (e : EveSingle) (para : Para) (full flag : Bool) : Except Fault (Bool×Bool) :=
  if full then .ok (flag,false)
  else if e.eventType=eveLightOver∨e.eventType=eveLightUnder then
    match e.evePara,para with
    | .floatVal threshold,.number x => .ok (edge (x.lt threshold) (threshold.le x) flag)
    | _,_ => .error .para
  else if e.eventType=eveSoundOver∨e.eventType=eveSoundUnder then
    match e.evePara,para with
    | .floatVal threshold,.number x => .ok (edge (threshold.lt x) (x.lt threshold) flag)
    | _,_ => .error .para
  else if e.eventType=eveMessage then
    match e.evePara,para with
    | .byteVal s,.text t => .ok (flag,decide (s=t))
    | _,_ => .error .para
  else .ok (flag,true)

/-- The event after the answer of its check. -/
def EveSingle.marked (e : EveSingle) (mark : Bool) : EveSingle :=
  if mark then {e with eveOccured := true} else e

/-- A trigger at a place: the place and whether its event is marked. -/
def examine (eventType : EventType) (para : Para) : Option Place→Unit→
    Except Fault (Option Place×Bool)
  | none,_ => .error .table
  | some p,_ =>
    match p.event with
    | none => .ok (some p,false)
    | some e =>
      if eventType=e.eventType∧e.isEventRegister then
        match check e para p.full p.flag with
        | .error err => .error err
        | .ok r => .ok (some ⟨some (EveSingle.marked e r.2),r.1,p.full⟩,r.2)
      else .ok (some p,false)

/-- The mechanism with the event and the flag of a place changed. -/
def withPlace (st : State) (i : Fin codeyEveMaxNum) (e : EveSingle) (flag : Bool) : State :=
  {st with
    codeyEveSingle := st.codeyEveSingle.set i.val (some e) i.isLt
    lightSoundTriggerdFlag := st.lightSoundTriggerdFlag.set i.val flag i.isLt}

variable (st : State) (i : Fin codeyEveMaxNum)

/-- The place that is changed. -/
theorem place_withPlace_self (e : EveSingle)
    (flag : Bool) : place (withPlace st i e flag) i.val=
      some ⟨some e,flag,decide (codeyEveMaxNum ≤ st.codeyEveId)⟩ := by
  have hevent : (withPlace st i e flag).codeyEveSingle.get i=some e :=
    Vector.getElem_set_self i.isLt
  have hflag : (withPlace st i e flag).lightSoundTriggerdFlag.get i=flag :=
    Vector.getElem_set_self i.isLt
  rw [place,dif_pos i.isLt,hevent,hflag]
  rfl

/-- The other places. -/
theorem place_withPlace_of_ne (e : EveSingle)
    (flag : Bool) {k : ℕ} (hk : k≠i.val) : place (withPlace st i e flag) k=place st k := by
  simp only [place]
  split
  case isTrue h =>
    have hevent : (withPlace st i e flag).codeyEveSingle.get ⟨k,h⟩=
        st.codeyEveSingle.get ⟨k,h⟩ := Vector.getElem_set_ne i.isLt h (Ne.symm hk)
    have hflag : (withPlace st i e flag).lightSoundTriggerdFlag.get ⟨k,h⟩=
        st.lightSoundTriggerdFlag.get ⟨k,h⟩ := Vector.getElem_set_ne i.isLt h (Ne.symm hk)
    rw [hevent,hflag]
    rfl
  · rfl

variable {e : EveSingle} {eventType : EventType}

/-- Nothing changes when what is there is written back. -/
theorem withPlace_get (he : st.codeyEveSingle.get i=some e) :
    withPlace st i e (st.lightSoundTriggerdFlag.get i)=st := by
  have hsingle : st.codeyEveSingle.set i.val (some e) i.isLt=st.codeyEveSingle := by
    rw [←he]
    exact Vector.set_getElem_self i.isLt
  have hflags : st.lightSoundTriggerdFlag.set i.val (st.lightSoundTriggerdFlag.get i) i.isLt=
      st.lightSoundTriggerdFlag := Vector.set_getElem_self i.isLt
  rw [withPlace,hsingle,hflags]

theorem set_get {α : Type} {n : ℕ} (v : Vector α n) (i : Fin n) {x : α} (hx : v.get i=x) :
    v.set i.val x i.isLt=v := by
  rw [←hx]
  exact Vector.set_getElem_self i.isLt

/-- The check of `codey_eve_trigger_t` changes the flag of its place. -/
theorem codeyEveTriggerCheck_eq (he : st.codeyEveSingle.get i=some e) (para : Para) :
    codeyEveTriggerCheck st i e para=
      match check e para (decide (codeyEveMaxNum ≤ st.codeyEveId))
        (st.lightSoundTriggerdFlag.get i) with
      | .error err => .error err
      | .ok r => .ok (withPlace st i e r.1,r.2) := by
  have hsingle := set_get st.codeyEveSingle i he
  have hsame := withPlace_get st i he
  unfold codeyEveTriggerCheck check
  by_cases hfull : codeyEveMaxNum ≤ st.codeyEveId
  · rw [if_pos hfull,if_pos (decide_eq_true hfull)]
    dsimp only
    rw [hsame]
  rw [if_neg hfull,if_neg (ne_true_of_eq_false (decide_eq_false hfull))]
  by_cases hlight : e.eventType=eveLightOver∨e.eventType=eveLightUnder
  · rw [if_pos hlight,if_pos hlight]
    cases e.evePara with
    | floatVal threshold =>
      cases para with
      | number x =>
        dsimp only [withPlace]
        rw [hsingle]
      | null => rfl
      | text t => rfl
    | unset => rfl
    | byteVal s => rfl
  rw [if_neg hlight,if_neg hlight]
  by_cases hsound : e.eventType=eveSoundOver∨e.eventType=eveSoundUnder
  · rw [if_pos hsound,if_pos hsound]
    cases e.evePara with
    | floatVal threshold =>
      cases para with
      | number x =>
        dsimp only [withPlace]
        rw [hsingle]
      | null => rfl
      | text t => rfl
    | unset => rfl
    | byteVal s => rfl
  rw [if_neg hsound,if_neg hsound]
  by_cases hmessage : e.eventType=eveMessage
  · rw [if_pos hmessage,if_pos hmessage]
    cases e.evePara with
    | byteVal s =>
      cases para with
      | text t =>
        dsimp only
        rw [hsame]
      | null => rfl
      | number x => rfl
    | unset => rfl
    | floatVal threshold => rfl
  · rw [if_neg hmessage,if_neg hmessage]
    dsimp only
    rw [hsame]

theorem codeyEveSetOccuredFlagT_withPlace
    (e : EveSingle) (flag : Bool) :
    codeyEveSetOccuredFlagT (withPlace st i e flag) i e true=
      withPlace st i (EveSingle.marked e true) flag := by
  have hset : (st.codeyEveSingle.set i.val (some e) i.isLt).set i.val
      (some {e with eveOccured := true}) i.isLt=
        st.codeyEveSingle.set i.val (some {e with eveOccured := true}) i.isLt :=
    Vector.set_set ..
  dsimp only [codeyEveSetOccuredFlagT,withPlace]
  rw [hset]
  rfl

/-- The body of the loop examines a place. -/
theorem triggerOne_eq (eventType : EventType) (para : Para) (st : State)
    (i : Fin codeyEveMaxNum) : triggerOne eventType para st i.val=
      match st.codeyEveSingle.get i with
      | none => .ok (st,false)
      | some e =>
        if eventType=e.eventType∧e.isEventRegister then
          match check e para (decide (codeyEveMaxNum ≤ st.codeyEveId))
            (st.lightSoundTriggerdFlag.get i) with
          | .error err => .error err
          | .ok r => .ok (withPlace st i (EveSingle.marked e r.2) r.1,r.2)
        else .ok (st,false) := by
  rw [triggerOne,dif_pos i.isLt]
  cases he : st.codeyEveSingle.get i with
  | none => rfl
  | some e =>
    dsimp only
    by_cases htype : eventType=e.eventType∧e.isEventRegister
    · rw [if_pos htype,if_pos htype,codeyEveTriggerCheck_eq st i he]
      cases check e para (decide (codeyEveMaxNum ≤ st.codeyEveId))
          (st.lightSoundTriggerdFlag.get i) with
      | error err => rfl
      | ok r =>
        obtain ⟨flag,mark⟩ := r
        cases mark with
        | false => rfl
        | true =>
          dsimp only
          rw [codeyEveSetOccuredFlagT_withPlace]
    · rw [if_neg htype,if_neg htype]

/-- The places of the table are independent. -/
def places (eventType : EventType) (para : Para) :
    Parts (triggerOne eventType para) (examine eventType para) ℕ where
  get := place
  dest := id
  input _ := ()
  view := id
  step_ok := by
    intro st i s o h
    dsimp only [id] at h
    by_cases hlt : i < codeyEveMaxNum
    · have hplace : place st i=some ⟨st.codeyEveSingle.get ⟨i,hlt⟩,
          st.lightSoundTriggerdFlag.get ⟨i,hlt⟩,decide (codeyEveMaxNum ≤ st.codeyEveId)⟩ :=
        dif_pos hlt
      have hstep := triggerOne_eq eventType para st ⟨i,hlt⟩
      rw [hplace,examine] at h
      dsimp only at h hstep
      cases he : st.codeyEveSingle.get ⟨i,hlt⟩ with
      | none =>
        rw [he] at h hstep
        cases h
        refine ⟨st,false,hstep,rfl,?_,fun _ _ => rfl⟩
        rw [←he,←hplace]
        rfl
      | some e =>
        rw [he] at h hstep
        dsimp only at h hstep
        split at h
        case isTrue htype =>
          rw [if_pos htype] at hstep
          split at h
          · cases h
          case h_2 r hcheck =>
            rw [hcheck] at hstep
            cases h
            refine ⟨_,_,hstep,rfl,?_,fun k hk => ?_⟩
            · exact place_withPlace_self st ⟨i,hlt⟩ (EveSingle.marked e r.2) r.1
            · exact place_withPlace_of_ne st ⟨i,hlt⟩ (EveSingle.marked e r.2) r.1 hk
        case isFalse htype =>
          rw [if_neg htype] at hstep
          cases h
          refine ⟨st,false,hstep,rfl,?_,fun _ _ => rfl⟩
          rw [←he,←hplace]
          rfl
    · have hplace : place st i=none := dif_neg hlt
      rw [hplace,examine] at h
      cases h
  step_error := by
    intro st i err h
    dsimp only [id] at h
    by_cases hlt : i < codeyEveMaxNum
    · have hplace : place st i=some ⟨st.codeyEveSingle.get ⟨i,hlt⟩,
          st.lightSoundTriggerdFlag.get ⟨i,hlt⟩,decide (codeyEveMaxNum ≤ st.codeyEveId)⟩ :=
        dif_pos hlt
      have hstep := triggerOne_eq eventType para st ⟨i,hlt⟩
      rw [hplace,examine] at h
      dsimp only at h hstep
      rw [hstep]
      split at h
      · cases h
      case h_2 e he =>
        split at h
        case isTrue htype =>
          rw [if_pos htype]
          split at h
          case h_1 err' hcheck =>
            cases h
            rfl
          · cases h
        · cases h
    · have hplace : place st i=none := dif_neg hlt
      rw [hplace,examine] at h
      rw [triggerOne,dif_neg hlt]
      cases h
      rfl

/-! ## All places -/

/-- The item of a list that is numbered with an index. -/
theorem filterMap_zip_range {α : Type} (k : ℕ) (os : List α) : ∀ a,
    ((List.range' a os.length).zip os).filterMap (fun io => if io.1=k then some io.2 else none)=
      if a≤k then os[k-a]?.toList else [] := by
  induction os with
  | nil =>
    intro a
    split <;> rfl
  | cons o os ih =>
    intro a
    rw [List.length_cons,List.range'_succ,List.zip_cons_cons,List.filterMap_cons,ih]
    by_cases hak : a=k
    · rw [if_pos hak,if_neg (by omega),if_pos (by omega),hak,Nat.sub_self]
      rfl
    · rw [if_neg hak]
      by_cases hle : a≤k
      · have hsub : k-a=(k-(a+1))+1 := by
          omega
        rw [if_pos (by omega),if_pos hle,hsub,List.getElem?_cons_succ]
      · rw [if_neg (by omega),if_neg hle]

/-- An index is in a range once or not at all. -/
theorem filterMap_range (k n : ℕ) : ∀ a,
    ((List.range' a n).filterMap fun i => if i=k then some () else none)=
      if a≤k∧k < a+n then [()] else [] := by
  induction n with
  | zero =>
    intro a
    rw [if_neg (by omega)]
    rfl
  | succ n ih =>
    intro a
    rw [List.range'_succ,List.filterMap_cons,ih]
    by_cases hak : a=k
    · rw [if_pos hak,if_neg (by omega),if_pos (by omega)]
    · rw [if_neg hak]
      by_cases hin : a≤k∧k < a+(n+1)
      · rw [if_pos hin,if_pos (by omega)]
      · rw [if_neg hin,if_neg (by omega)]

/-- A place gets the trigger when it is below the number of events. -/
theorem inputsOf_range (eventType : EventType) (para : Para) (k n : ℕ) :
    (places eventType para).inputsOf k (List.range n)=if k < n then [()] else [] := by
  have hrange := filterMap_range k n 0
  simp only [Nat.zero_le,true_and,Nat.zero_add] at hrange
  rw [Parts.inputsOf,List.range_eq_range']
  exact hrange

/-- A run of one input or none. -/
theorem run_if {σ ι ω ε : Type} {step : σ→ι→Except ε (σ×ω)} {c : Prop} [Decidable c] {s t : σ}
    {i : ι} {os : List ω} (h : run step s (if c then [i] else [])=.ok (t,os)) :
    if c then ∃ o,step s i=.ok (t,o)∧os=[o] else t=s∧os=[] := by
  by_cases hc : c
  · rw [if_pos hc] at h
    rw [if_pos hc]
    obtain ⟨m,o,os',hstep,hrest,rfl⟩ := run_cons_eq_ok.mp h
    cases hrest
    exact ⟨o,hstep,rfl⟩
  · rw [if_neg hc] at h
    rw [if_neg hc]
    cases h
    exact ⟨rfl,rfl⟩

/-- What a trigger does at a place: it is examined if it is below the number of
events, and is as before if not. -/
theorem trigger_place {st st' : State} {para : Para}
    {marks : List Bool} (h : codeyEveTriggerT st eventType para=.ok (st',marks)) (k : ℕ) :
    if k < st.codeyEveCurNum then
      examine eventType para (place st k) ()=.ok (place st' k,marks.getD k false)
    else place st' k=place st k∧marks.getD k false=false := by
  have hlength := length_of_run h
  rw [List.length_range] at hlength
  have hpart := (places eventType para).run_part k h
  have houtputs : (places eventType para).outputsOf k (List.range st.codeyEveCurNum) marks=
      marks[k]?.toList := by
    have hzip := filterMap_zip_range k marks 0
    rw [if_pos (Nat.zero_le k),Nat.sub_zero,←hlength,←List.range_eq_range'] at hzip
    exact hzip
  rw [inputsOf_range,houtputs] at hpart
  have hrun := run_if hpart
  by_cases hk : k < st.codeyEveCurNum
  · rw [if_pos hk] at hrun
    rw [if_pos hk]
    obtain ⟨o,hexamine,hone⟩ := hrun
    have hmark : marks[k]?=some marks[k] := List.getElem?_eq_getElem (hlength▸hk)
    have hget : marks.getD k false=o := by
      rw [hmark] at hone
      rw [List.getD_eq_getElem?_getD,hmark]
      exact List.head_eq_of_cons_eq hone
    rw [hget]
    exact hexamine
  · rw [if_neg hk] at hrun
    rw [if_neg hk]
    refine ⟨hrun.1,?_⟩
    rw [List.getD_eq_getElem?_getD,List.getElem?_eq_none (by omega)]
    rfl

/-- A trigger has no fault when none of the places has one. -/
theorem trigger_ok_iff (eventType : EventType) (para : Para) :
    (∃ r,codeyEveTriggerT st eventType para=.ok r)↔
      ∀ k < st.codeyEveCurNum,∃ r,examine eventType para (place st k) ()=.ok r := by
  refine ((places eventType para).succeeds_iff _ st).trans (forall_congr' fun k => ?_)
  rw [inputsOf_range]
  by_cases hk : k < st.codeyEveCurNum
  · rw [if_pos hk]
    constructor
    · rintro ⟨r,hrun⟩ _
      obtain ⟨t,o,_,hstep,_⟩ := run_cons_eq_ok.mp hrun
      exact ⟨(t,o),hstep⟩
    · intro h
      obtain ⟨r,hr⟩ := h hk
      exact (succeeds_cons hr).mpr (succeeds_nil _)
  · rw [if_neg hk]
    exact iff_of_true (succeeds_nil _) (fun hlt => absurd hlt hk)

/-- A trigger keeps the numbers of events. -/
theorem trigger_counts {st st' : State} {para : Para}
    {marks : List Bool} (h : codeyEveTriggerT st eventType para=.ok (st',marks)) :
    st'.codeyEveId=st.codeyEveId∧st'.codeyEveCurNum=st.codeyEveCurNum := by
  refine @run_invariant _ _ _ _ _ _ _ (fun s => s.codeyEveId=st.codeyEveId∧
    s.codeyEveCurNum=st.codeyEveCurNum) ?_ _ _ ⟨rfl,rfl⟩ h
  intro s i t o hs hstep
  by_cases hi : i < codeyEveMaxNum
  · rw [triggerOne_eq eventType para s ⟨i,hi⟩] at hstep
    split at hstep
    · cases hstep
      exact hs
    · split at hstep
      · split at hstep
        · cases hstep
        · cases hstep
          exact hs
      · cases hstep
        exact hs
  · rw [triggerOne,dif_neg hi] at hstep
    cases hstep

/-! ## The answer at a place -/

/-- A full table answers no. -/
theorem check_full (e : EveSingle) (para : Para) (flag : Bool) :
    check e para true flag=.ok (flag,false) := by
  unfold check
  rw [if_pos rfl]

theorem examine_other (h : eventType≠e.eventType) (para : Para) (flag full : Bool) :
    examine eventType para (some ⟨some e,flag,full⟩) ()=.ok (some ⟨some e,flag,full⟩,false) :=
  if_neg fun hboth => h hboth.1

/-- The answer for an event of the type is that of its check. -/
theorem examine_own (htype : eventType=e.eventType)
    (hregister : e.isEventRegister=true) (para : Para) (flag full : Bool) {p : Prop} :
    (∃ r,examine eventType para (some ⟨some e,flag,full⟩) ()=.ok r∧(r.2=true↔p))↔
      ∃ r,check e para full flag=.ok r∧(r.2=true↔p) := by
  have hexamine : examine eventType para (some ⟨some e,flag,full⟩) ()=
      match check e para full flag with
      | .error err => .error err
      | .ok r => .ok (some ⟨some (EveSingle.marked e r.2),r.1,full⟩,r.2) :=
    if_pos ⟨htype,hregister⟩
  rw [hexamine]
  cases check e para full flag with
  | error err => exact iff_of_false (fun ⟨r,hr,_⟩ => nomatch hr) (fun ⟨r,hr,_⟩ => nomatch hr)
  | ok r =>
    constructor
    · rintro ⟨r',hr,hp⟩
      cases hr
      exact ⟨r,rfl,hp⟩
    · rintro ⟨r',hr,hp⟩
      cases hr
      exact ⟨_,rfl,hp⟩

end MicroPython.EventPlaces
