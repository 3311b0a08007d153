import MicroPython.EventPlaces

/-!
# Which events occur

The events registered since the last de-initialisation are noted in a list, each
with whether its comparison held at the last trigger of its type. A trigger should
mark the events of its type whose condition holds, those of light and sound only if
it did not hold before. The mechanism does that as long as the table is not full,
all events are visible and the flags that it keeps by the place in the table are
what the comparisons of the registered events say.
-/

namespace MicroPython.EventFaithful

open List EventMechanism EventPlaces InputMachine

/-! ## The events as they are meant -/

/-- What an event waits for. -/
inductive Kind where
  | plain
  /-- The light falls below a threshold. -/
  | light
  /-- The sound rises above a threshold. -/
  | sound
  | message
  deriving DecidableEq

/-- The kind of a type. -/
def kind (eventType : EventType) : Kind :=
  if eventType=eveLightOver∨eventType=eveLightUnder then .light
  else if eventType=eveSoundOver∨eventType=eveSoundUnder then .sound
  else if eventType=eveMessage then .message else .plain

/-- The calls of `codey_eve_register_t` by `codey_event_register`. -/
inductive Registration where
  /-- An event without a parameter, which is given a number all the same. -/
  | plain (eventType : EventType) (hkind : kind eventType=.plain) (x : Single)
  | level (eventType : EventType) (hkind : kind eventType=.light∨kind eventType=.sound)
    (threshold : Single)
  | message (s : CString)

/-- The type of the event. -/
def Registration.eventType : Registration→EventType
  | .plain eventType _ _ => eventType
  | .level eventType _ _ => eventType
  | .message _ => eveMessage

/-- The parameter of the call. -/
def Registration.para : Registration→Para
  | .plain _ _ x => .number x
  | .level _ _ threshold => .number threshold
  | .message s => .text s

/-- The parameter that the event gets. -/
def Registration.evePara : Registration→EvePara
  | .plain _ _ _ => .unset
  | .level _ _ threshold => .floatVal threshold
  | .message s => .byteVal s

/-- The condition of the event. -/
def Registration.condition : Registration→Para→Bool
  | .plain _ _ _,_ => true
  | .level eventType _ threshold,.number x =>
    if kind eventType=.light then x.lt threshold else threshold.lt x
  | .message s,.text t => decide (s=t)
  | _,_ => false

/-- A call of `codey_eve_trigger_t` whose parameter, if there is one, is what the
events of the type compare. -/
structure Trigger where
  eventType : EventType
  para : Para
  number : ∀ x,para=.number x → kind eventType≠.message
  text : ∀ s,para=.text s → kind eventType≠.light∧kind eventType≠.sound

/-- A registered event. -/
structure Noted where
  registration : Registration
  /-- The condition held at the last trigger of its type. -/
  held : Bool

/-- The kind of the event. -/
def Noted.kind (n : Noted) : Kind := EventFaithful.kind n.registration.eventType

/-- The event waits for a comparison. -/
def Noted.isLevel (n : Noted) : Prop := n.kind=.light∨n.kind=.sound

/-- The event should be marked: its condition holds, and that of light or sound for
the first time since registration or since it last failed. -/
def Noted.Due (n : Noted) (t : Trigger) : Prop :=
  t.eventType=n.registration.eventType∧n.registration.condition t.para∧(n.isLevel → n.held=false)

/-- The event after a trigger. -/
def Noted.after (n : Noted) (t : Trigger) : Noted :=
  if t.eventType=n.registration.eventType then
    {n with held := n.registration.condition t.para}
  else n

/-- What happens to the mechanism. -/
inductive EventOp where
  /-- `codey_eve_register_t` -/
  | register (r : Registration)
  /-- `codey_eve_init_t` -/
  | init
  /-- `codey_eve_deinit_t` -/
  | deinit
  /-- `codey_eve_trigger_t` -/
  | trigger (t : Trigger)

/-- The registered events after an operation. A full table takes no more. -/
def noted (events : List Noted) : EventOp→List Noted
  | .register r =>
    if events.length < codeyEveMaxNum then events++[⟨r,false⟩] else events
  | .init => events
  | .deinit => []
  | .trigger t => events.map (Noted.after · t)

/-- The mechanism and the events as they are meant. -/
structure Joint where
  /-- The mechanism. -/
  state : State
  /-- The events registered since the last de-initialisation. -/
  events : List Noted

/-- The start of the program. -/
def Joint.initial : Joint := ⟨.initial,[]⟩

/-- An operation on the mechanism, with the marks. -/
def stepState (st : State) : EventOp→Except Fault (State×List Bool)
  | .register r =>
    match codeyEveRegisterT st r.eventType r.para with
    | .error e => .error e
    | .ok s => .ok (s.1,[])
  | .init => .ok (codeyEveInitT st,[])
  | .deinit => .ok (codeyEveDeinitT st,[])
  | .trigger t => codeyEveTriggerT st t.eventType t.para

/-- An operation. -/
def step (s : Joint) (op : EventOp) : Except Fault (Joint×List Bool) :=
  match stepState s.state op with
  | .error e => .error e
  | .ok (st,marks) => .ok (⟨st,noted s.events op⟩,marks)

/-- The event at a place has occurred. -/
def occured (st : State) (i : Fin codeyEveMaxNum) : Bool :=
  match st.codeyEveSingle.get i with
  | none => false
  | some e => e.eveOccured

/-- The event at a place should be marked. -/
def DueAt (events : List Noted) (t : Trigger) (i : Fin codeyEveMaxNum) : Prop :=
  ∃ n,events[i.val]?=some n∧n.Due t

/-- An operation does what it should: a trigger marks the events that are due and no
others, and a registration writes to its own event only. -/
def Faithful (s : Joint) (op : EventOp) : Prop :=
  ∃ st marks,stepState s.state op=.ok (st,marks)∧
    match op with
    | .register _ => ∀ i,i.val≠s.state.codeyEveId →
        st.codeyEveSingle.get i=s.state.codeyEveSingle.get i
    | .trigger t => ∀ i : Fin codeyEveMaxNum,(marks.getD i.val false=true↔DueAt s.events t i)∧
        (occured st i=true↔occured s.state i=true∨DueAt s.events t i)
    | _ => True

/-- The mechanism looks at the event at a place. -/
def Examined (st : State) (i : ℕ) : Prop :=
  st.codeyEveId < codeyEveMaxNum∧i < st.codeyEveCurNum

/-- What a trigger needs of an event of its type: one that the mechanism looks at has
a parameter to compare, and while the comparison holds the flag of its place says
whether it held before. One that it does not look at is not due. -/
structure TriggerSound (st : State) (t : Trigger) (i : Fin codeyEveMaxNum) (n : Noted) : Prop where
  para : Examined st i.val → t.para=.null → n.kind=.plain
  flag : Examined st i.val → n.isLevel → n.registration.condition t.para →
    st.lightSoundTriggerdFlag.get i=n.held
  examined : n.Due t → Examined st i.val

/-- What an operation needs: a message fits, unless the table is full, and a trigger
finds the events of its type in order. -/
def Sound (s : Joint) : EventOp→Prop
  | .register (.message text) =>
    s.state.codeyEveId < codeyEveMaxNum → text.val.length < byteValSize
  | .trigger t => ∀ (i : Fin codeyEveMaxNum) (n : Noted),s.events[i.val]?=some n →
      t.eventType=n.registration.eventType → TriggerSound s.state t i n
  | _ => True

/-! ## The check of an event -/

/-- An event of the table is one that was registered. -/
def Matches : Option EveSingle→Option Registration→Prop
  | none,none => True
  | some e,some r => e.eventType=r.eventType∧e.isEventRegister=true∧e.evePara=r.evePara
  | _,_ => False

variable {eventType : EventType} {st : State} {marks : List Bool} {s : Joint}

theorem kind_light : kind eventType=.light↔eventType=eveLightOver∨eventType=eveLightUnder := by
  unfold kind
  split
  case isTrue h => exact iff_of_true rfl h
  case isFalse h =>
    refine iff_of_false ?_ h
    split
    · exact fun h => nomatch h
    · split <;> exact fun h => nomatch h

/-- The types of sound. -/
theorem kind_sound : kind eventType=.sound↔eventType=eveSoundOver∨eventType=eveSoundUnder := by
  unfold kind
  split
  case isTrue h =>
    refine iff_of_false (fun h => nomatch h) ?_
    rintro (rfl|rfl)
    · exact absurd h (by decide)
    · exact absurd h (by decide)
  case isFalse h =>
    split
    case isTrue hs => exact iff_of_true rfl hs
    case isFalse hs =>
      refine iff_of_false ?_ hs
      split <;> exact fun h => nomatch h

theorem kind_message : kind eventType=.message↔eventType=eveMessage := by
  constructor
  · unfold kind
    split
    · exact fun h => nomatch h
    · split
      · exact fun h => nomatch h
      · split
        case isTrue h => exact fun _ => h
        case isFalse h => exact fun h => nomatch h
  · rintro rfl
    decide

/-- The check of an event of a kind, when the table is not full. -/
def checkBy : Kind→EvePara→Para→Bool→Except Fault (Bool×Bool)
  | .light,.floatVal threshold,.number x,flag =>
    .ok (edge (x.lt threshold) (threshold.le x) flag)
  | .sound,.floatVal threshold,.number x,flag =>
    .ok (edge (threshold.lt x) (x.lt threshold) flag)
  | .message,.byteVal s,.text t,flag => .ok (flag,decide (s=t))
  | .plain,_,_,flag => .ok (flag,true)
  | _,_,_,_ => .error .para

/-- The check goes by the kind of the event. -/
theorem check_kind (e : EveSingle) (para : Para) (flag : Bool) :
    check e para false flag=checkBy (kind e.eventType) e.evePara para flag := by
  unfold check kind
  rw [if_neg Bool.false_ne_true]
  by_cases hlight : e.eventType=eveLightOver∨e.eventType=eveLightUnder
  · rw [if_pos hlight,if_pos hlight]
    cases e.evePara <;> cases para <;> rfl
  rw [if_neg hlight,if_neg hlight]
  by_cases hsound : e.eventType=eveSoundOver∨e.eventType=eveSoundUnder
  · rw [if_pos hsound,if_pos hsound]
    cases e.evePara <;> cases para <;> rfl
  rw [if_neg hsound,if_neg hsound]
  by_cases hmessage : e.eventType=eveMessage
  · rw [if_pos hmessage,if_pos hmessage]
    cases e.evePara <;> cases para <;> rfl
  · rw [if_neg hmessage,if_neg hmessage]
    rfl

theorem edge_snd (holds reset flag : Bool) :
    (edge holds reset flag).2=true↔holds=true∧flag=false := by
  cases holds <;> cases reset <;> cases flag <;> decide

/-- The check of an event of light or sound against a number. -/
theorem checkBy_level (hkind : kind eventType=.light∨kind eventType=.sound) (threshold x : Single)
    (flag : Bool) : ∃ reset,checkBy (kind eventType) (.floatVal threshold) (.number x) flag=
      .ok (edge ((Registration.level eventType hkind threshold).condition (.number x)) reset
        flag) := by
  by_cases hlight : kind eventType=.light
  · have hcondition : (Registration.level eventType hkind threshold).condition (.number x)=
        x.lt threshold := if_pos hlight
    rw [hcondition,hlight]
    exact ⟨_,rfl⟩
  · have hcondition : (Registration.level eventType hkind threshold).condition (.number x)=
        threshold.lt x := if_neg hlight
    rw [hcondition,hkind.resolve_left hlight]
    exact ⟨_,rfl⟩

theorem checkBy_level_null {k : Kind} (hkind : k=.light∨k=.sound) (threshold : Single)
    (flag : Bool) : checkBy k (.floatVal threshold) .null flag=.error .para := by
  obtain h|h := hkind
  · rw [h]
    rfl
  · rw [h]
    rfl

/-- The check of a registered event by a trigger of its type: it needs a parameter
unless the event is a plain one, and answers whether the condition holds, for light
and sound if the flag is not set. -/
theorem check_registered {e : EveSingle} {n : Noted}
    (hmatch : Matches (some e) (some n.registration)) (t : Trigger)
    (htype : t.eventType=n.registration.eventType) (flag : Bool) :
    ((∃ r,check e t.para false flag=.ok r)↔(t.para=.null → n.kind=.plain))∧
      ∀ r,check e t.para false flag=.ok r →
        (r.2=true↔n.registration.condition t.para∧(n.isLevel → flag=false)) := by
  obtain ⟨registration,held⟩ := n
  obtain ⟨eventType,para,hnumber,htext⟩ := t
  obtain ⟨hetype,_,hepara⟩ := hmatch
  dsimp only at htype hetype hepara ⊢
  rw [htype] at hnumber htext
  rw [check_kind,hetype,hepara,Noted.isLevel,Noted.kind]
  cases registration with
  | plain eventType hkind x =>
    dsimp only [Registration.eventType]
    rw [hkind]
    refine ⟨iff_of_true ⟨_,rfl⟩ (fun _ => rfl),?_⟩
    intro r hr
    cases hr
    exact iff_of_true rfl ⟨rfl,fun h => h.elim (fun h => nomatch h) (fun h => nomatch h)⟩
  | level eventType hkind threshold =>
    dsimp only [Registration.eventType,Registration.evePara] at hnumber htext ⊢
    have hneq : kind eventType≠.plain := by
      intro h
      rw [h] at hkind
      exact hkind.elim (fun h => nomatch h) (fun h => nomatch h)
    cases para with
    | null =>
      rw [checkBy_level_null hkind]
      exact ⟨iff_of_false (fun h => nomatch h) (fun h => hneq (h rfl)),fun r hr => nomatch hr⟩
    | number x =>
      obtain ⟨reset,hcheck⟩ := checkBy_level hkind threshold x flag
      rw [hcheck]
      refine ⟨iff_of_true ⟨_,rfl⟩ (fun h => nomatch h),?_⟩
      intro r hr
      cases hr
      rw [edge_snd]
      exact and_congr_right fun _ => ⟨fun h _ => h,fun h => h hkind⟩
    | text s =>
      obtain ⟨hlight,hsound⟩ := htext s rfl
      exact (hkind.elim hlight hsound).elim
  | message s =>
    have hkind : kind eveMessage=.message := rfl
    dsimp only [Registration.eventType,Registration.evePara] at hnumber htext ⊢
    rw [hkind]
    cases para with
    | null =>
      exact ⟨iff_of_false (fun h => nomatch h) (fun h => nomatch h rfl),fun r hr => nomatch hr⟩
    | number x => exact absurd hkind (hnumber x rfl)
    | text u =>
      refine ⟨iff_of_true ⟨_,rfl⟩ (fun h => nomatch h),?_⟩
      intro r hr
      cases hr
      exact ⟨fun h => ⟨h,fun h => h.elim (fun h => nomatch h) (fun h => nomatch h)⟩,fun h => h.1⟩

/-! ## A trigger -/

/-- The mechanism and the events as they are meant belong together. -/
structure Inv (s : Joint) : Prop where
  /-- The next place is the number of events. -/
  id_eq : s.state.codeyEveId=s.events.length
  /-- The events fit the table. -/
  length_le : s.events.length≤codeyEveMaxNum
  /-- All events are visible or none. -/
  curNum : s.state.codeyEveCurNum=0∨s.state.codeyEveCurNum=s.events.length
  /-- The table has the events in order. -/
  entries : ∀ i : Fin codeyEveMaxNum,Matches (s.state.codeyEveSingle.get i)
    (s.events[i.val]?.map Noted.registration)

/-- The event at a place has occurred. -/
def Place.occured (p : Place) : Bool :=
  match p.event with
  | none => false
  | some e => e.eveOccured

/-- A place has what the table has. -/
theorem place_eq (st : State) (i : Fin codeyEveMaxNum) : place st i.val=
    some ⟨st.codeyEveSingle.get i,st.lightSoundTriggerdFlag.get i,
      decide (codeyEveMaxNum ≤ st.codeyEveId)⟩ :=
  dif_pos i.isLt

/-- At a place that is examined the event has occurred if it had before or is marked
now, and is the event that it was. -/
theorem examine_event {para : Para} {p q : Place} {mark : Bool}
    {o : Option Registration} (h : examine eventType para (some p) ()=.ok (some q,mark))
    (hmatch : Matches p.event o) : Matches q.event o∧
      (Place.occured q=true↔Place.occured p=true∨mark=true) := by
  rw [examine] at h
  split at h
  case h_1 hnone =>
    cases h
    exact ⟨hmatch,(or_iff_left Bool.false_ne_true).symm⟩
  case h_2 e he =>
    split at h
    case isTrue htype =>
      split at h
      · cases h
      case h_2 r hcheck =>
        obtain ⟨flag,mark⟩ := r
        cases h
        rw [he] at hmatch
        rw [Place.occured,Place.occured,he]
        cases mark with
        | false => exact ⟨hmatch,(or_iff_left Bool.false_ne_true).symm⟩
        | true =>
          refine ⟨?_,iff_of_true rfl (Or.inr rfl)⟩
          cases o with
          | none => exact hmatch
          | some r => exact hmatch
    case isFalse htype =>
      cases h
      exact ⟨hmatch,(or_iff_left Bool.false_ne_true).symm⟩

/-- After a trigger the events that are marked have occurred, and those that had
before. -/
theorem trigger_event {st' : State} {para : Para}
    (h : codeyEveTriggerT st eventType para=.ok (st',marks))
    (i : Fin codeyEveMaxNum) {o : Option Registration}
    (hmatch : Matches (st.codeyEveSingle.get i) o) :
    Matches (st'.codeyEveSingle.get i) o∧
      (occured st' i=true↔occured st i=true∨marks.getD i.val false=true) := by
  have hplace := trigger_place h i.val
  rw [place_eq,place_eq] at hplace
  by_cases hk : i.val < st.codeyEveCurNum
  · rw [if_pos hk] at hplace
    exact examine_event hplace hmatch
  · rw [if_neg hk] at hplace
    obtain ⟨hsame,hmark⟩ := hplace
    have hevent : st'.codeyEveSingle.get i=st.codeyEveSingle.get i :=
      congrArg Place.event (Option.some.inj hsame)
    rw [occured,occured,hevent,hmark]
    exact ⟨hmatch,(or_iff_left Bool.false_ne_true).symm⟩

/-- A trigger does what it should when it does so at each place: it marks the event if
and only if it is due. -/
theorem faithful_trigger (hs : Inv s) (t : Trigger) :
    Faithful s (.trigger t)↔∀ i : Fin codeyEveMaxNum,
      if i.val < s.state.codeyEveCurNum then
        ∃ r,examine t.eventType t.para (place s.state i.val) ()=.ok r∧(r.2=true↔DueAt s.events t i)
      else ¬DueAt s.events t i := by
  have hle : s.state.codeyEveCurNum≤codeyEveMaxNum := by
    have hlen := hs.length_le
    obtain h|h := hs.curNum
    · omega
    · omega
  constructor
  · rintro ⟨st,marks,hok,hmarks⟩ i
    have hplace := trigger_place hok i.val
    obtain ⟨hmark,_⟩ := hmarks i
    by_cases hk : i.val < s.state.codeyEveCurNum
    · rw [if_pos hk] at hplace ⊢
      exact ⟨_,hplace,hmark⟩
    · rw [if_neg hk] at hplace ⊢
      rw [hplace.2] at hmark
      exact fun hdue => Bool.false_ne_true (hmark.mpr hdue)
  · intro h
    have hall : ∀ k < s.state.codeyEveCurNum,∃ r,
        examine t.eventType t.para (place s.state k) ()=.ok r := by
      intro k hk
      have hi := h ⟨k,Nat.lt_of_lt_of_le hk hle⟩
      rw [if_pos hk] at hi
      obtain ⟨r,hr,_⟩ := hi
      exact ⟨r,hr⟩
    obtain ⟨⟨st,marks⟩,hok⟩ := (trigger_ok_iff s.state t.eventType t.para).mpr hall
    refine ⟨st,marks,hok,fun i => ?_⟩
    have hplace := trigger_place hok i.val
    have hi := h i
    have hmark : marks.getD i.val false=true↔DueAt s.events t i := by
      by_cases hk : i.val < s.state.codeyEveCurNum
      · rw [if_pos hk] at hplace hi
        obtain ⟨r,hr,hdue⟩ := hi
        rw [hplace] at hr
        cases hr
        exact hdue
      · rw [if_neg hk] at hplace hi
        rw [hplace.2]
        exact iff_of_false Bool.false_ne_true hi
    refine ⟨hmark,?_⟩
    rw [(trigger_event hok i (hs.entries i)).2,hmark]

/-- Two flags that are not set under the same condition. -/
theorem flags_agree {condition level : Prop} {flag held : Bool} :
    ((condition∧(level → flag=false))↔(condition∧(level → held=false)))↔
      (level → condition → flag=held) := by
  by_cases hc : condition
  · by_cases hl : level
    · cases flag <;> cases held <;> simp [hc,hl]
    · exact iff_of_true (and_congr_right fun _ => iff_of_true (fun h => absurd h hl)
        (fun h => absurd h hl)) (fun h => absurd h hl)
  · exact iff_of_true (iff_of_false (fun h => hc h.1) (fun h => hc h.1)) (fun _ h => absurd h hc)

/-- For a registered event of the type the answer is right exactly when the event is
in order. -/
theorem check_right {e : EveSingle} {n : Noted} (st : State)
    (hentry : Matches (some e) (some n.registration)) (t : Trigger)
    (htype : t.eventType=n.registration.eventType) (i : Fin codeyEveMaxNum) :
    (if i.val < st.codeyEveCurNum then
        ∃ r,check e t.para (decide (codeyEveMaxNum ≤ st.codeyEveId))
          (st.lightSoundTriggerdFlag.get i)=.ok r∧(r.2=true↔n.Due t)
      else ¬n.Due t)↔TriggerSound st t i n := by
  -- an event that is not examined must not be due
  have hhidden : ¬Examined st i.val → (¬n.Due t↔TriggerSound st t i n) := fun hnot =>
    ⟨fun h => ⟨fun h => absurd h hnot,fun h => absurd h hnot,fun hdue => absurd hdue h⟩,
      fun h hdue => hnot (h.examined hdue)⟩
  by_cases hk : i.val < st.codeyEveCurNum
  · rw [if_pos hk]
    by_cases hfull : codeyEveMaxNum ≤ st.codeyEveId
    · rw [decide_eq_true hfull,check_full,←hhidden fun h => absurd h.1 (Nat.not_lt.mpr hfull)]
      constructor
      · rintro ⟨r,hr,hdue⟩
        cases hr
        exact fun h => Bool.false_ne_true (hdue.mpr h)
      · exact fun h => ⟨_,rfl,iff_of_false Bool.false_ne_true h⟩
    · have hyes : Examined st i.val := ⟨Nat.lt_of_not_le hfull,hk⟩
      obtain ⟨hok,hanswer⟩ := check_registered hentry t htype (st.lightSoundTriggerdFlag.get i)
      have hdue : n.Due t↔n.registration.condition t.para∧(n.isLevel → n.held=false) :=
        and_iff_right htype
      rw [decide_eq_false hfull]
      constructor
      · rintro ⟨r,hr,hmark⟩
        have hsame := ((hanswer r hr).symm.trans hmark).trans hdue
        exact ⟨fun _ => hok.mp ⟨r,hr⟩,fun _ => flags_agree.mp hsame,fun _ => hyes⟩
      · intro h
        obtain ⟨r,hr⟩ := hok.mpr (h.para hyes)
        have hsame := flags_agree.mpr (h.flag hyes)
        exact ⟨r,hr,(hanswer r hr).trans (hsame.trans hdue.symm)⟩
  · rw [if_neg hk]
    exact hhidden fun h => hk h.2

/-- At a place a trigger does what it should exactly when the event there is in
order. -/
theorem faithful_place (hs : Inv s) (t : Trigger) (i : Fin codeyEveMaxNum) :
    (if i.val < s.state.codeyEveCurNum then
        ∃ r,examine t.eventType t.para (place s.state i.val) ()=.ok r∧(r.2=true↔DueAt s.events t i)
      else ¬DueAt s.events t i)↔
      ∀ n,s.events[i.val]?=some n → t.eventType=n.registration.eventType →
        TriggerSound s.state t i n := by
  have hentry := hs.entries i
  rw [place_eq]
  -- nothing is due, and nothing is marked
  have hquiet : ∀ event,¬DueAt s.events t i →
      (∀ flag full,∃ p,examine t.eventType t.para (some ⟨event,flag,full⟩) ()=.ok (p,false)) →
      if i.val < s.state.codeyEveCurNum then
        ∃ r,examine t.eventType t.para (some ⟨event,s.state.lightSoundTriggerdFlag.get i,
          decide (codeyEveMaxNum ≤ s.state.codeyEveId)⟩) ()=.ok r∧(r.2=true↔DueAt s.events t i)
      else ¬DueAt s.events t i := by
    intro event hdue hexamine
    split
    · obtain ⟨p,hp⟩ := hexamine _ _
      exact ⟨(p,false),hp,iff_of_false Bool.false_ne_true hdue⟩
    · exact hdue
  cases hn : s.events[i.val]? with
  | none =>
    have hdue : ¬DueAt s.events t i := by
      rintro ⟨n,hn',_⟩
      rw [hn] at hn'
      cases hn'
    rw [hn] at hentry
    cases he : s.state.codeyEveSingle.get i with
    | some e =>
      rw [he] at hentry
      exact hentry.elim
    | none => exact iff_of_true (hquiet none hdue fun _ _ => ⟨_,rfl⟩) (fun n h => nomatch h)
  | some n =>
    have hdueAt : DueAt s.events t i↔n.Due t := by
      constructor
      · rintro ⟨n',hn',hdue⟩
        rw [hn] at hn'
        cases hn'
        exact hdue
      · exact fun h => ⟨n,hn,h⟩
    rw [hn] at hentry
    cases he : s.state.codeyEveSingle.get i with
    | none =>
      rw [he] at hentry
      exact hentry.elim
    | some e =>
      rw [he] at hentry
      by_cases htype : t.eventType=n.registration.eventType
      · rw [examine_own (htype.trans hentry.1.symm) hentry.2.1,hdueAt,
          check_right s.state hentry t htype i]
        constructor
        · intro h n' hn' _
          cases hn'
          exact h
        · exact fun h => h n rfl htype
      · have hdue : ¬DueAt s.events t i := fun h => htype (hdueAt.mp h).1
        have hother : t.eventType≠e.eventType := fun h => htype (h.trans hentry.1)
        refine iff_of_true (hquiet (some e) hdue fun flag full =>
          ⟨_,examine_other hother t.para flag full⟩) ?_
        intro n' hn' htype'
        cases hn'
        exact absurd htype' htype

/-! ## A registration -/

theorem level_iff : ¬eventType≤lastButton∧eventType≤eveLightUnder↔
      kind eventType=.light∨kind eventType=.sound := by
  rw [kind_light,kind_sound]
  simp only [UInt32.le_iff_toNat_le,←UInt32.toNat_inj,eveLightOver,eveLightUnder,eveSoundOver,
    eveSoundUnder,lastButton,UInt32.reduceToNat]
  omega

/-- What a registration stores. -/
theorem storePara_eq (r : Registration) : storePara r.eventType r.para=
    match r with
    | .message s => if s.val.length < byteValSize then .ok r.evePara else .error .byteVal
    | _ => .ok r.evePara := by
  cases r with
  | plain eventType hkind x =>
    have hlevel : ¬(¬eventType≤lastButton∧eventType≤eveLightUnder) := by
      rw [level_iff,hkind]
      exact fun h => h.elim (fun h => nomatch h) (fun h => nomatch h)
    have hmessage : eventType≠eveMessage := by
      intro h
      exact nomatch (kind_message.mpr h).symm.trans hkind
    dsimp only [Registration.eventType,Registration.para,storePara]
    by_cases hbutton : eventType≤lastButton
    · rw [if_pos hbutton]
      rfl
    · rw [if_neg hbutton,if_neg (fun h => hlevel ⟨hbutton,h⟩),if_neg hmessage]
      rfl
  | level eventType hkind threshold =>
    obtain ⟨hbutton,hlight⟩ := level_iff.mpr hkind
    dsimp only [Registration.eventType,Registration.para,storePara]
    rw [if_neg hbutton,if_pos hlight]
    rfl
  | message s => rfl

/-- The mechanism with an event more. -/
def added (st : State) (r : Registration) (h : st.codeyEveId < codeyEveMaxNum) : State :=
  {st with
    codeyEveSingle := st.codeyEveSingle.set st.codeyEveId
      (some ⟨st.codeyEveId,r.eventType,true,false,r.evePara⟩) h
    codeyEveId := st.codeyEveId+1
    codeyEveCurNum := st.codeyEveId+1}

/-- What a registration does in all cases. -/
theorem register_cases {st' : State} {r : Registration}
    (h : stepState st (.register r)=.ok (st',marks)) :
    (codeyEveMaxNum ≤ st.codeyEveId∧st'=st)∨
      ∃ hlt : st.codeyEveId < codeyEveMaxNum,st'=added st r hlt := by
  rw [stepState,codeyEveRegisterT,storePara_eq] at h
  by_cases hlt : st.codeyEveId < codeyEveMaxNum
  · right
    refine ⟨hlt,?_⟩
    rw [dif_pos hlt] at h
    cases r with
    | plain eventType hkind x =>
      cases h
      rfl
    | level eventType hkind threshold =>
      cases h
      rfl
    | message s =>
      dsimp only at h
      by_cases hfits : s.val.length < byteValSize
      · rw [if_pos hfits] at h
        cases h
        rfl
      · rw [if_neg hfits] at h
        cases h
  · left
    rw [dif_neg hlt] at h
    cases h
    exact ⟨Nat.le_of_not_lt hlt,rfl⟩

/-- A registration writes to its own event only exactly when a message fits. -/
theorem faithful_register (s : Joint) (r : Registration) :
    Faithful s (.register r)↔Sound s (.register r) := by
  have hwrites : ∀ st marks,stepState s.state (.register r)=.ok (st,marks) →
      ∀ i : Fin codeyEveMaxNum,i.val≠s.state.codeyEveId →
        st.codeyEveSingle.get i=s.state.codeyEveSingle.get i := by
    intro st marks hok i hi
    obtain ⟨_,hst⟩|⟨hlt,hst⟩ := register_cases hok
    · rw [hst]
    · rw [hst]
      exact Vector.getElem_set_ne hlt i.isLt (Ne.symm hi)
  have hok : Faithful s (.register r)↔∃ out,stepState s.state (.register r)=.ok out := by
    constructor
    · rintro ⟨st,marks,hstep,_⟩
      exact ⟨_,hstep⟩
    · rintro ⟨⟨st,marks⟩,hstep⟩
      exact ⟨st,marks,hstep,hwrites st marks hstep⟩
  rw [hok,stepState,codeyEveRegisterT,storePara_eq]
  by_cases hlt : s.state.codeyEveId < codeyEveMaxNum
  · rw [dif_pos hlt]
    cases r with
    | plain eventType hkind x => exact iff_of_true ⟨_,rfl⟩ trivial
    | level eventType hkind threshold => exact iff_of_true ⟨_,rfl⟩ trivial
    | message text =>
      dsimp only
      by_cases hfits : text.val.length < byteValSize
      · rw [if_pos hfits]
        exact iff_of_true ⟨_,rfl⟩ (fun _ => hfits)
      · rw [if_neg hfits]
        exact iff_of_false (fun ⟨_,h⟩ => nomatch h) (fun h => hfits (h hlt))
  · rw [dif_neg hlt]
    refine iff_of_true ⟨_,rfl⟩ ?_
    cases r with
    | plain eventType hkind x => trivial
    | level eventType hkind threshold => trivial
    | message text => exact fun h => absurd h hlt

/-! ## Runs -/

/-- At the start the table is empty. -/
theorem inv_initial : Inv Joint.initial where
  id_eq := rfl
  length_le := Nat.zero_le _
  curNum := Or.inl rfl
  entries i := by
    have hnone : Joint.initial.state.codeyEveSingle.get i=none :=
      Vector.getElem_replicate i.isLt
    rw [hnone]
    trivial

/-- An event more stands behind the others. -/
theorem inv_register (hs : Inv s) {r : Registration}
    (h : stepState s.state (.register r)=.ok (st,marks)) :
    Inv ⟨st,noted s.events (.register r)⟩ := by
  have hid := hs.id_eq
  obtain ⟨hfull,hst⟩|⟨hlt,hst⟩ := register_cases h
  · have hnoted : noted s.events (.register r)=s.events := if_neg (by omega)
    rw [hst,hnoted]
    exact hs
  · have hnoted : noted s.events (.register r)=s.events++[⟨r,false⟩] := if_pos (by omega)
    rw [hst,hnoted]
    constructor
    · simp only [added,hid,length_append,length_singleton]
    · simp only [length_append,length_singleton]
      omega
    · right
      simp only [added,hid,length_append,length_singleton]
    · intro i
      by_cases hi : i.val=s.state.codeyEveId
      · have hget : (added s.state r hlt).codeyEveSingle.get i=
            some ⟨s.state.codeyEveId,r.eventType,true,false,r.evePara⟩ := by
          have hfin : i=⟨s.state.codeyEveId,hlt⟩ := Fin.ext hi
          rw [hfin]
          exact Vector.getElem_set_self hlt
        rw [hget,hi,hid,List.getElem?_append_right (Nat.le_refl _),Nat.sub_self]
        exact ⟨rfl,rfl,rfl⟩
      · have hget : (added s.state r hlt).codeyEveSingle.get i=s.state.codeyEveSingle.get i :=
          Vector.getElem_set_ne hlt i.isLt (Ne.symm hi)
        have hentry := hs.entries i
        rw [hget]
        by_cases hbelow : i.val < s.events.length
        · rw [List.getElem?_append_left hbelow]
          exact hentry
        · have hnone : (s.events++[(⟨r,false⟩ : Noted)])[i.val]?=none := by
            rw [List.getElem?_eq_none_iff,length_append,length_singleton]
            omega
          rw [List.getElem?_eq_none (by omega)] at hentry
          rw [hnone]
          exact hentry

/-- A trigger leaves the events what they are. -/
theorem after_registration (n : Noted) (t : Trigger) : (n.after t).registration=n.registration := by
  rw [Noted.after]
  split <;> rfl

/-- After a trigger the table has the events in order. -/
theorem inv_trigger (hs : Inv s) {t : Trigger} (h : stepState s.state (.trigger t)=.ok (st,marks)) :
    Inv ⟨st,noted s.events (.trigger t)⟩ := by
  obtain ⟨hid,hcur⟩ := trigger_counts h
  have hlength : (noted s.events (.trigger t)).length=s.events.length := length_map _
  constructor
  · rw [hlength]
    exact hid.trans hs.id_eq
  · rw [hlength]
    exact hs.length_le
  · rw [hlength]
    have hs' := hs.curNum
    rw [←hcur] at hs'
    exact hs'
  · intro i
    obtain ⟨hmatch,_⟩ := trigger_event h i (hs.entries i)
    have hsame : (noted s.events (.trigger t))[i.val]?.map Noted.registration=
        s.events[i.val]?.map Noted.registration := by
      rw [noted,List.getElem?_map,Option.map_map]
      congr 1
      exact funext fun n => after_registration n t
    rw [hsame]
    exact hmatch

/-- Every operation keeps the mechanism and the events together. -/
theorem inv_step {s' : Joint} (hs : Inv s) {op : EventOp}
    (h : step s op=.ok (s',marks)) : Inv s' := by
  rw [step] at h
  split at h
  · cases h
  case h_2 st marks' hok =>
    cases h
    cases op with
    | register r => exact inv_register hs hok
    | trigger t => exact inv_trigger hs hok
    | init =>
      cases hok
      exact ⟨hs.id_eq,hs.length_le,Or.inl rfl,hs.entries⟩
    | deinit =>
      cases hok
      exact ⟨rfl,Nat.zero_le _,Or.inl rfl,inv_initial.entries⟩

/-- An operation does what it should exactly when it finds what it needs. -/
theorem operation_faithful_iff (hs : Inv s) (op : EventOp) : Faithful s op↔Sound s op := by
  cases op with
  | register r => exact faithful_register s r
  | init => exact iff_of_true ⟨_,_,rfl,trivial⟩ trivial
  | deinit => exact iff_of_true ⟨_,_,rfl,trivial⟩ trivial
  | trigger t =>
    rw [faithful_trigger hs t]
    constructor
    · exact fun h i => (faithful_place hs t i).mp (h i)
    · exact fun h i => (faithful_place hs t i).mpr (h i)

theorem not_faithful_of_missed {t : Trigger} (i : Fin codeyEveMaxNum)
    (hmissed : ∃ r,stepState s.state (.trigger t)=.ok r∧r.2.getD i.val false=false)
    (hdue : DueAt s.events t i) : ¬Faithful s (.trigger t) := by
  rintro ⟨st,marks,hok,hmarks⟩
  obtain ⟨r,hr,hfalse⟩ := hmissed
  rw [hok] at hr
  cases hr
  have htrue := (hmarks i).1.mpr hdue
  rw [hfalse] at htrue
  exact Bool.false_ne_true htrue

/-- The number 10. -/
def ten : Single := ⟨0x41200000⟩

/-- The number 50. -/
def fifty : Single := ⟨0x42480000⟩

/-- The number 60. -/
def sixty : Single := ⟨0x42700000⟩

/-- A light event below 50. -/
def dark : Registration := .level eveLightUnder (Or.inl rfl) fifty

/-- A sound event above 50. -/
def loud : Registration := .level eveSoundOver (Or.inr rfl) fifty

/-- The event of the first button. -/
def button : Registration := .plain 1 rfl ten

/-- A value of the light sensor. -/
def light (x : Single) : Trigger :=
  ⟨eveLightUnder,.number x,fun _ _ h => (nomatch h),fun _ h => (nomatch h)⟩

/-- A value of the sound sensor. -/
def sound (x : Single) : Trigger :=
  ⟨eveSoundOver,.number x,fun _ _ h => (nomatch h),fun _ h => (nomatch h)⟩

/-- The first button is pressed. -/
def press : Trigger := ⟨1,.null,fun _ h => (nomatch h),fun _ h => (nomatch h)⟩

/-- A message of 64 bytes. -/
def longMessage : CString := ⟨List.replicate 64 0x61,fun c hc => by
  rw [List.eq_of_mem_replicate hc]
  decide⟩

end MicroPython.EventFaithful
