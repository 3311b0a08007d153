import Mathlib.Data.List.Infix
import MicroPython.ImportModules

/-!
# Modules that are loaded

Whatever bodies import while they run, and wherever one of them fails, the modules stay as the
statements about imports say: an invariant holds after every step, and a name that is registered
stays so, with no more bodies run for it.
-/

namespace MicroPython.ImportLoaded

open Option Function List FallibleRuns ImportModules

/-- What `mp_module_get` finds for a name. -/
def findModule (env : Env) (w : World) (n : Name) : Option Obj :=
  (w.loaded n).or ((plainName env.builtin n).map .builtin)

/-- A name is found with no call of an `__init__`. -/
def Settled (env : Env) (w : World) (n : Name) : Prop :=
  w.loaded n≠none∨∃ b,plainName env.builtin n=some b∧env.init b=none

/-- The module of a name: one that is found, or the one that a weak link has for it. -/
def IsModule (env : Env) (w : World) (n : Name) (o : Obj) : Prop :=
  findModule env w n=some o∨(plainName env.weakLink n).map .builtin=some o

/-- A submodule that is loaded is an attribute of its package, unless the package is built in or
its body has stored something under that name. -/
def BoundAt (env : Env) (w : World) (p : Name) (c : Ident) : Prop :=
  .completed (p++[c])∈w.log → (∃ b,findModule env w p=some (.builtin b))∨.assigned p c∈w.log∨
    w.attrs (.module p) c=some (.module (p++[c]))

/-- What holds whenever an import starts or ends; a submodule that is just being loaded does not
have to be bound. -/
structure Inv (env : Env) (skip : Name→Prop) (w : World) : Prop where
  /-- A module with a body that has started is registered. -/
  known : ∀ n,.started n∈w.log∨.raised n∈w.log∨.completed n∈w.log → w.loaded n=some (.module n)
  /-- A body has started at most once. -/
  started : ∀ n,w.log.count (.started n)≤1
  /-- A body has run to its end at most once. -/
  completed : ∀ n,w.log.count (.completed n)≤1
  /-- The packages of a module that is registered are there. -/
  settled : ∀ n,w.loaded n≠none → ∀ m,m≠[] → m<+:n → Settled env w m
  /-- A name stands for the module that was made for it or one that is built in. -/
  object : ∀ n o,w.loaded n=some o → o=.module n∨∃ b,o=.builtin b
  /-- An import returns the module of the name or that of its first part. -/
  value : ∀ n fromList v,.returned n fromList v∈w.log →
    ∃ o,v=some o∧IsModule env w (if fromList then n else n.take 1) o
  bound : ∀ p c,p≠[] → ¬skip (p++[c]) → BoundAt env w p c

/-- The invariant for all submodules. -/
def Sound (env : Env) (w : World) : Prop := Inv env (fun _ => False) w

/-- Names stay registered, what has happened stays so, and for names that are registered no more
bodies are run, except for some. -/
structure Grows (env : Env) (except : Name→Prop) (w v : World) : Prop where
  /-- Registered names stand for the same object. -/
  loaded : ∀ n o,w.loaded n=some o → v.loaded n=some o
  /-- Names that are found stand for the same object. -/
  found : ∀ n o,findModule env w n=some o → findModule env v n=some o
  /-- The record only grows. -/
  log : ∀ e∈w.log,e∈v.log
  /-- No body of a registered module is started. -/
  started : ∀ n,¬except n → w.loaded n≠none → v.log.count (.started n)=w.log.count (.started n)
  /-- No body of a registered module is completed. -/
  completed : ∀ n,¬except n → w.loaded n≠none →
    v.log.count (.completed n)=w.log.count (.completed n)

section Basic

variable {env : Env} {except skip : Name→Prop} {w v u : World} {n m : Name} {o : Obj}

/-- Nothing changes. -/
theorem Grows.refl (env : Env) (except : Name→Prop) (w : World) : Grows env except w w :=
  ⟨fun _ _ h => h,fun _ _ h => h,fun _ h => h,fun _ _ _ => rfl,fun _ _ _ => rfl⟩

/-- A name that stays registered. -/
theorem Grows.ne_none (h : Grows env except w v) (hn : w.loaded n≠none) : v.loaded n≠none := by
  obtain ⟨o,ho⟩ := ne_none_iff_exists'.mp hn
  rw [h.loaded n o ho]
  exact some_ne_none o

/-- One change after another. -/
theorem Grows.trans (h : Grows env except w v) (h' : Grows env except v u) :
    Grows env except w u := by
  refine ⟨fun n o hn => h'.loaded n o (h.loaded n o hn),
    fun n o hn => h'.found n o (h.found n o hn),fun e he => h'.log e (h.log e he),
    fun n hx hn => ?_,fun n hx hn => ?_⟩
  · rw [h'.started n hx (h.ne_none hn),h.started n hx hn]
  · rw [h'.completed n hx (h.ne_none hn),h.completed n hx hn]

theorem Grows.imp {except' : Name→Prop} (h : Grows env except w v)
    (hexcept : ∀ n,w.loaded n≠none → except n → except' n) : Grows env except' w v :=
  ⟨h.loaded,h.found,h.log,fun n hx hn => h.started n (fun hn' => hx (hexcept n hn hn')) hn,
    fun n hx hn => h.completed n (fun hn' => hx (hexcept n hn hn')) hn⟩

/-- A name that is settled stays so. -/
theorem Settled.grows (h : Settled env w n) (hgrows : Grows env except w v) : Settled env v n :=
  h.imp_left hgrows.ne_none

/-- The module of a name stays the same. -/
theorem IsModule.grows (h : IsModule env w n o) (hgrows : Grows env except w v) :
    IsModule env v n o := h.imp_left (hgrows.found n o)

/-- A registered name is found. -/
theorem findModule_of_loaded (h : w.loaded n=some o) : findModule env w n=some o := by
  rw [findModule,h]
  rfl

theorem loaded_of_findModule (h : findModule env w n=none) : w.loaded n=none :=
  (or_eq_none_iff.mp h).1

/-- A settled name is found. -/
theorem Settled.found (h : Settled env w n) : findModule env w n≠none := by
  rw [findModule]
  cases h with
  | inl hloaded =>
    obtain ⟨o,ho⟩ := ne_none_iff_exists'.mp hloaded
    rw [ho]
    exact some_ne_none o
  | inr hbuiltin =>
    obtain ⟨b,hb,-⟩ := hbuiltin
    rw [hb]
    cases w.loaded n with
    | none => exact some_ne_none _
    | some o => exact some_ne_none _

/-- A name with more than one part is not built in. -/
theorem exists_of_plainName {table : Ident→Option ℕ} {b : ℕ} (h : plainName table n=some b) :
    ∃ c,n=[c] := by
  cases n with
  | nil => cases h
  | cons c n =>
    cases n with
    | nil => exact ⟨c,rfl⟩
    | cons d n => cases h

/-- The only part of a name that has one is the name. -/
theorem eq_of_isPrefix_singleton {c : Ident} (hne : m≠[]) (h : m<+:[c]) : m=[c] := by
  cases m with
  | nil => exact absurd rfl hne
  | cons d m =>
    obtain ⟨rfl,hrest⟩ := cons_prefix_cons.mp h
    rw [prefix_nil.mp hrest]

/-- Fewer submodules have to be bound. -/
theorem Inv.imp {skip' : Name→Prop} (h : Inv env skip w) (hskip : ∀ n,skip n → skip' n) :
    Inv env skip' w :=
  ⟨h.known,h.started,h.completed,h.settled,h.object,h.value,
    fun p c hp hs => h.bound p c hp fun hs' => hs (hskip _ hs')⟩

theorem Inv.quiet (h : Inv env skip w) (hn : w.loaded n≠some (.module n)) :
    .started n∉w.log∧.completed n∉w.log :=
  ⟨fun hmem => hn (h.known n (.inl hmem)),fun hmem => hn (h.known n (.inr (.inr hmem)))⟩

end Basic

/-! ## Steps -/

section Steps

variable {env : Env} {except skip : Name→Prop} {w : World} {n : Name}

/-- Something else than the run of a body happens. -/
theorem grows_record {e : Event} (h : ∀ n,e=.started n∨e=.completed n → except n) :
    Grows env except w (w.record e) := by
  refine ⟨fun _ _ hn => hn,fun _ _ hn => hn,fun _ he => mem_cons_of_mem _ he,
    fun n hx _ => ?_,fun n hx _ => ?_⟩
  · exact count_cons_of_ne fun heq => hx (h n (.inl heq))
  · exact count_cons_of_ne fun heq => hx (h n (.inr heq))

/-- Something happens that the invariant allows. -/
theorem Inv.record (h : Inv env skip w) {e : Event}
    (hknown : ∀ n,e=.started n∨e=.raised n∨e=.completed n → w.loaded n=some (.module n))
    (hstarted : ∀ n,e=.started n → .started n∉w.log)
    (hcompleted : ∀ n,e=.completed n → .completed n∉w.log∧skip n)
    (hvalue : ∀ n fromList v,e=.returned n fromList v →
      ∃ o,v=some o∧IsModule env w (if fromList then n else n.take 1) o) :
    Inv env skip (w.record e) := by
  have hmem : ∀ e',e'∈(w.record e).log → e'=e∨e'∈w.log := fun e' he => mem_cons.mp he
  refine ⟨fun n hn => ?_,fun n => ?_,fun n => ?_,h.settled,h.object,fun n fromList v hv => ?_,
    fun p c hp hs hc => ?_⟩
  · obtain hn | hn | hn := hn
    · cases hmem _ hn with
      | inl heq => exact hknown n (.inl heq.symm)
      | inr hold => exact h.known n (.inl hold)
    · cases hmem _ hn with
      | inl heq => exact hknown n (.inr (.inl heq.symm))
      | inr hold => exact h.known n (.inr (.inl hold))
    · cases hmem _ hn with
      | inl heq => exact hknown n (.inr (.inr heq.symm))
      | inr hold => exact h.known n (.inr (.inr hold))
  · by_cases heq : e=.started n
    · have hnot := hstarted n heq
      rw [heq,World.record,count_cons_self,count_eq_zero.mpr hnot]
    · rw [World.record,count_cons_of_ne heq]
      exact h.started n
  · by_cases heq : e=.completed n
    · have hnot := (hcompleted n heq).1
      rw [heq,World.record,count_cons_self,count_eq_zero.mpr hnot]
    · rw [World.record,count_cons_of_ne heq]
      exact h.completed n
  · cases hmem _ hv with
    | inl heq => exact hvalue n fromList v heq.symm
    | inr hold => exact h.value n fromList v hold
  · cases hmem _ hc with
    | inl heq => exact absurd (hcompleted _ heq.symm).2 hs
    | inr hold =>
      obtain hb | ha | hs := h.bound p c hp hs hold
      · exact .inl hb
      · exact .inr (.inl (mem_cons_of_mem _ ha))
      · exact .inr (.inr hs)

/-- What is in the dictionaries of other names does not matter when a name is registered that was
not. -/
theorem grows_loaded {v : World} {o : Obj} (hn : w.loaded n=none)
    (hfound : ∀ o',findModule env w n=some o' → o'=o)
    (hloaded : v.loaded=Function.update w.loaded n (some o)) (hlog : v.log=w.log) :
    Grows env except w v := by
  refine ⟨fun m o' hm => ?_,fun m o' hm => ?_,fun e he => hlog▸he,fun m _ _ => by rw [hlog],
    fun m _ _ => by rw [hlog]⟩
  · have hne : m≠n := by
      rintro rfl
      rw [hn] at hm
      cases hm
    rw [hloaded,update_of_ne hne]
    exact hm
  · by_cases hne : m=n
    · rw [hne] at hm ⊢
      rw [hfound o' hm,findModule,hloaded,update_self]
      rfl
    · rw [findModule,hloaded,update_of_ne hne]
      exact hm

/-- The invariant when a name is registered that was not, but for what is bound. -/
theorem Inv.loaded {skip' : Name→Prop} (h : Inv env skip w) {v : World} {o : Obj}
    (hobject : o=.module n∨∃ b,o=.builtin b)
    (hsettled : ∀ m,m≠[] → m<+:n → m≠n → Settled env w m)
    (hloaded : v.loaded=Function.update w.loaded n (some o)) (hlog : v.log=w.log)
    (hgrows : Grows env except w v)
    (hbound : ∀ p c,p≠[] → ¬skip' (p++[c]) → BoundAt env v p c) : Inv env skip' v := by
  refine ⟨fun m hm => ?_,fun m => by rw [hlog]; exact h.started m,
    fun m => by rw [hlog]; exact h.completed m,fun m hm k hk hle => ?_,fun m o' hm => ?_,
    fun m fromList r hr => ?_,hbound⟩
  · rw [hlog] at hm
    exact hgrows.loaded m _ (h.known m hm)
  · by_cases hne : k=n
    · rw [hne]
      refine .inl ?_
      rw [hloaded,update_self]
      exact some_ne_none o
    · by_cases hmn : m=n
      · exact (hsettled k hk (hmn▸hle) hne).grows hgrows
      · rw [hloaded,update_of_ne hmn] at hm
        exact (h.settled m hm k hk hle).grows hgrows
  · by_cases hne : m=n
    · rw [hloaded,hne,update_self] at hm
      cases hm
      exact hne▸hobject
    · rw [hloaded,update_of_ne hne] at hm
      exact h.object m o' hm
  · rw [hlog] at hr
    obtain ⟨o',ho',hmodule⟩ := h.value m fromList r hr
    exact ⟨o',ho',hmodule.grows hgrows⟩

theorem Inv.register (h : Inv env skip w) {b : ℕ} (hn : w.loaded n=none)
    (hplain : ∃ c,n=[c]) (hfound : ∀ o,findModule env w n=some o → o=.builtin b) :
    Inv env skip (w.register n (.builtin b))∧Grows env except w (w.register n (.builtin b)) := by
  have hgrows : Grows env except w (w.register n (.builtin b)) := grows_loaded hn hfound rfl rfl
  obtain ⟨c,rfl⟩ := hplain
  refine ⟨h.loaded (.inr ⟨b,rfl⟩) (fun m hm hle hne =>
    absurd (eq_of_isPrefix_singleton hm hle) hne) rfl rfl hgrows fun p d hp hs hc => ?_,hgrows⟩
  obtain hb | ha | hs := h.bound p d hp hs hc
  · obtain ⟨b',hb⟩ := hb
    exact .inl ⟨b',hgrows.found p _ hb⟩
  · exact .inr (.inl ha)
  · exact .inr (.inr hs)

/-- A module is made for a name that is not found, whose packages are there. -/
theorem Inv.create (h : Inv env skip w) (hn : findModule env w n=none)
    (hsettled : ∀ m,m≠[] → m<+:n → m≠n → Settled env w m) :
    Inv env skip (w.create n)∧Grows env except w (w.create n) := by
  have hnone := loaded_of_findModule hn
  have hgrows : Grows env except w (w.create n) :=
    grows_loaded hnone (fun o ho => by rw [hn] at ho; cases ho) rfl rfl
  refine ⟨h.loaded (.inl rfl) hsettled rfl rfl hgrows fun p c hp hs hc => ?_,hgrows⟩
  have hne : p≠n := by
    rintro rfl
    have hloaded := h.known (p++[c]) (.inr (.inr hc))
    have hset := h.settled (p++[c]) (by rw [hloaded]; exact some_ne_none _) p hp
      (prefix_append p [c])
    exact hset.found hn
  obtain hb | ha | hs := h.bound p c hp hs hc
  · obtain ⟨b,hb⟩ := hb
    exact .inl ⟨b,hgrows.found p _ hb⟩
  · exact .inr (.inl ha)
  · refine .inr (.inr ?_)
    have hobj : Obj.module p≠.module n := fun heq => hne (Obj.module.inj heq)
    change Function.update w.attrs (.module n) (fun _ => none) (.module p) c=_
    rw [update_of_ne hobj]
    exact hs

end Steps

/-! ## Getting a module -/

section Getting

variable {env : Env} {skip : Name→Prop} {w : World} {n : Name}

/-- An `__init__` that is called leaves its module registered. -/
theorem callInit_meets (h : Sound env w) {b : ℕ} (hn : w.loaded n=none) (hplain : ∃ c,n=[c])
    (hfound : ∀ o,findModule env w n=some o → o=.builtin b) :
    Meets (Sound env) (Grows env fun _ => False) (callInit env n b) w fun _ v =>
      Sound env v∧(v.loaded n=some (.builtin b)∨env.init b=none) := by
  rw [callInit]
  cases hinit : env.init b with
  | none => exact Meets.returns (Grows.refl env _) ⟨h,.inr rfl⟩
  | some r =>
    cases r with
    | some e => exact Meets.fails (Grows.refl env _) h e
    | none =>
      obtain ⟨hinv,hgrows⟩ := @Inv.register env (fun _ => False) _ w n h b hn hplain hfound
      refine Meets.changes hgrows ⟨hinv,.inl ?_⟩
      change Function.update w.loaded n (some (.builtin b)) n=_
      rw [update_self]

/-- What `mp_module_get` returns is what is found, and is there without an `__init__` from then
on. When it finds nothing, nothing has changed. -/
theorem mpModuleGet_meets (h : Sound env w) (n : Name) :
    Meets (Sound env) (Grows env fun _ => False) (mpModuleGet env n) w fun r v =>
      Sound env v∧(∀ o,r=some o → findModule env v n=some o∧Settled env v n)∧
        (r=none → v=w∧findModule env w n=none) := by
  rw [mpModuleGet]
  refine Meets.reads ?_
  cases hloaded : w.loaded n with
  | some o =>
    refine Meets.returns (Grows.refl env _) ⟨h,fun o' ho => ?_,fun hnone => (nomatch hnone)⟩
    cases ho
    exact ⟨findModule_of_loaded hloaded,.inl (by rw [hloaded]; exact some_ne_none o)⟩
  | none =>
    cases hplain : plainName env.builtin n with
    | none =>
      refine Meets.returns (Grows.refl env _) ⟨h,fun o ho => (nomatch ho),fun _ => ⟨rfl,?_⟩⟩
      rw [findModule,hloaded,hplain]
      rfl
    | some b =>
      have hfound : findModule env w n=some (.builtin b) := by
        rw [findModule,hloaded,hplain]
        rfl
      have hinit := callInit_meets h hloaded (exists_of_plainName hplain) fun o ho => by
        rw [hfound] at ho
        exact (Option.some.inj ho).symm
      refine Meets.andThen (fun _ _ _ h h' => h.trans h') hinit fun _ v hgrows hv => ?_
      refine Meets.returns (Grows.refl env _) ⟨hv.1,fun o ho => ?_,fun hnone => (nomatch hnone)⟩
      cases ho
      refine ⟨hgrows.found n _ hfound,?_⟩
      cases hv.2 with
      | inl hset => exact .inl (by rw [hset]; exact some_ne_none _)
      | inr hinit => exact .inr ⟨b,hplain,hinit⟩

end Getting

/-! ## Storing a submodule -/

section Storing

variable {env : Env} {skip : Name→Prop} {w : World} {n : Name}

/-- A change that is only one of the dictionaries. -/
theorem grows_attrs {except : Name→Prop} {v : World} (hloaded : v.loaded=w.loaded)
    (hlog : v.log=w.log) : Grows env except w v := by
  refine ⟨fun m o hm => by rw [hloaded]; exact hm,fun m o hm => ?_,fun e he => hlog▸he,
    fun m _ _ => by rw [hlog],fun m _ _ => by rw [hlog]⟩
  rw [findModule,hloaded]
  exact hm

/-- The invariant when only dictionaries have changed. -/
theorem Inv.attrs {skip' : Name→Prop} (h : Inv env skip w) {v : World}
    (hloaded : v.loaded=w.loaded) (hlog : v.log=w.log)
    (hbound : ∀ p c,p≠[] → ¬skip' (p++[c]) → BoundAt env v p c) : Inv env skip' v := by
  have hgrows : Grows env (fun _ => False) w v := grows_attrs hloaded hlog
  refine ⟨fun m hm => ?_,fun m => by rw [hlog]; exact h.started m,
    fun m => by rw [hlog]; exact h.completed m,fun m hm k hk hle => ?_,fun m o hm => ?_,
    fun m fromList r hr => ?_,hbound⟩
  · rw [hlog] at hm
    rw [hloaded]
    exact h.known m hm
  · rw [hloaded] at hm
    exact (h.settled m hm k hk hle).grows hgrows
  · rw [hloaded] at hm
    exact h.object m o hm
  · rw [hlog] at hr
    obtain ⟨o,ho,hmodule⟩ := h.value m fromList r hr
    exact ⟨o,ho,hmodule.grows hgrows⟩

/-- A submodule is stored in its package, which makes it bound. -/
theorem mpStoreAttr_meets {p : Name} {c : Ident} {outer o : Obj}
    (h : Inv env (fun n => n=p++[c]) w) (houter : findModule env w p=some outer)
    (ho : findModule env w (p++[c])=some o) :
    Meets (Sound env) (Grows env fun _ => False) (mpStoreAttr env outer c o) w fun _ v =>
      Sound env v := by
  have hother : ∀ q d,q++[d]≠p++[c] → q≠[] → BoundAt env w q d := fun q d hne hq =>
    h.bound q d hq hne
  cases outer with
  | builtin b =>
    -- nothing has to be stored in a module that is built in
    have hbound : ∀ q d,q≠[] → ¬False → BoundAt env w q d := by
      intro q d hq _
      by_cases heq : q++[d]=p++[c]
      · obtain ⟨rfl,hd⟩ := append_inj' heq rfl
        exact fun _ => .inl ⟨b,houter⟩
      · exact hother q d heq hq
    rw [mpStoreAttr]
    split
    case isTrue => exact Meets.returns (Grows.refl env _) (h.attrs rfl rfl hbound)
    case isFalse =>
      refine Meets.changes (grows_attrs rfl rfl) (h.attrs rfl rfl fun q d hq hs hc => ?_)
      obtain hb | ha | hstored := hbound q d hq hs hc
      · exact .inl hb
      · exact .inr (.inl ha)
      · refine .inr (.inr ?_)
        have hobj : Obj.module q≠.builtin b := fun heq => nomatch heq
        change Function.update w.attrs (.builtin b)
          (Function.update (w.attrs (.builtin b)) c (some o)) (.module q) d=_
        rw [update_of_ne hobj]
        exact hstored
  | module m =>
    have hm : m=p := by
      cases hloaded : w.loaded p with
      | none =>
        rw [findModule,hloaded] at houter
        cases hplain : plainName env.builtin p with
        | none =>
          rw [hplain] at houter
          cases houter
        | some b =>
          rw [hplain] at houter
          cases houter
      | some o' =>
        rw [findModule_of_loaded hloaded] at houter
        cases houter
        cases h.object p _ hloaded with
        | inl heq => exact Obj.module.inj heq
        | inr hbuiltin =>
          obtain ⟨b,hb⟩ := hbuiltin
          cases hb
    cases hm
    refine Meets.changes (grows_attrs rfl rfl) (h.attrs rfl rfl fun q d hq _ hc => ?_)
    by_cases heq : q++[d]=p++[c]
    · obtain ⟨rfl,hd⟩ := append_inj' heq rfl
      cases hd
      refine .inr (.inr ?_)
      have hloaded := h.known (q++[c]) (.inr (.inr hc))
      rw [findModule_of_loaded hloaded] at ho
      cases ho
      change Function.update w.attrs (.module q)
        (Function.update (w.attrs (.module q)) c _) (.module q) c=_
      rw [update_self,update_self]
    · obtain hb | ha | hstored := hother q d heq hq hc
      · exact .inl hb
      · exact .inr (.inl ha)
      · refine .inr (.inr ?_)
        change Function.update w.attrs (.module p)
          (Function.update (w.attrs (.module p)) c _) (.module q) d=_
        by_cases hqp : q=p
        · cases hqp
          have hdc : d≠c := fun hdc => heq (hdc▸rfl)
          rw [update_self,update_of_ne hdc]
          exact hstored
        · have hobj : Obj.module q≠.module p := fun heq => hqp (Obj.module.inj heq)
          rw [update_of_ne hobj]
          exact hstored

/-- The body of a module stores something in its own dictionary. -/
theorem Inv.assign (h : Sound env w) (n : Name) (c : Ident) (v : Obj) :
    Sound env ((w.store (.module n) c v).record (.assigned n c))∧
      Grows env (fun _ => False) w ((w.store (.module n) c v).record (.assigned n c)) := by
  have hstored : Inv env (fun m => m=n++[c]) (w.store (.module n) c v) := by
    refine h.attrs rfl rfl fun q d hq hne hc => ?_
    obtain hb | ha | hs := h.bound q d hq id hc
    · exact .inl hb
    · exact .inr (.inl ha)
    · refine .inr (.inr ?_)
      change Function.update w.attrs (.module n)
        (Function.update (w.attrs (.module n)) c (some v)) (.module q) d=_
      by_cases hqn : q=n
      · cases hqn
        have hdc : d≠c := fun hdc => hne (hdc▸rfl)
        rw [update_self,update_of_ne hdc]
        exact hs
      · have hobj : Obj.module q≠.module n := fun heq => hqn (Obj.module.inj heq)
        rw [update_of_ne hobj]
        exact hs
  have hrecord := @Inv.record env _ _ hstored (.assigned n c)
    (fun m hm => by obtain hm | hm | hm := hm <;> cases hm) (fun m hm => nomatch hm)
    (fun m hm => nomatch hm) fun m fromList r hr => nomatch hr
  refine ⟨⟨hrecord.known,hrecord.started,hrecord.completed,hrecord.settled,hrecord.object,
    hrecord.value,fun q d hq _ => ?_⟩,?_⟩
  · by_cases heq : q++[d]=n++[c]
    · obtain ⟨rfl,hd⟩ := append_inj' heq rfl
      cases hd
      exact fun _ => .inr (.inl mem_cons_self)
    · exact hrecord.bound q d hq heq
  · have hattrs : Grows env (fun _ => False) w (w.store (.module n) c v) := grows_attrs rfl rfl
    refine hattrs.trans (grows_record fun m hm => ?_)
    cases hm with
    | inl heq => cases heq
    | inr heq => cases heq

end Storing

/-! ## Loading -/

section Loading

variable {env : Env} {load : Name→List Char→Act Unit} {w : World}

/-- How a body is run: once for a module that was just made, and to its end only where the caller
says so. -/
def Loads (env : Env) (load : Name→List Char→Act Unit) : Prop :=
  ∀ n path w,Sound env w → w.loaded n=some (.module n) → .started n∉w.log → .completed n∉w.log →
    Meets (Sound env) (Grows env (·=n)) (load n path) w fun _ v =>
      Sound env v∧.completed n∉v.log

variable {n : Name}

/-- A package or a file is loaded, also when there is no body. -/
theorem loadModule_meets (hload : Loads env load) (h : Sound env w)
    (hloaded : w.loaded n=some (.module n)) (hstarted : .started n∉w.log)
    (hcompleted : .completed n∉w.log) (stat : Stat) (path : List Char) :
    Meets (Sound env) (Grows env (·=n)) (loadModule load env n stat path) w fun _ v =>
      Sound env v∧.completed n∉v.log := by
  rw [loadModule]
  split
  case isTrue =>
    have hpath : Sound env (w.setPath n path) := h.attrs rfl rfl h.bound
    have hgrows : Grows env (·=n) w (w.setPath n path) := grows_attrs rfl rfl
    refine Meets.andThen (fun _ _ _ h h' => h.trans h') (Meets.changes hgrows rfl)
      fun _ v _ (hv : v=w.setPath n path) => ?_
    cases hv
    cases findInit env path with
    | error e => exact Meets.fails (Grows.refl env _) hpath e
    | ok r =>
      obtain ⟨stat,path'⟩ := r
      simp only
      split
      case isTrue => exact Meets.returns (Grows.refl env _) ⟨hpath,hcompleted⟩
      case isFalse => exact hload n path' _ hpath hloaded hstarted hcompleted
  case isFalse => exact hload n path w h hloaded hstarted hcompleted

/-- A module whose load has ended is found from then on. -/
theorem completed_meets (h : Sound env w) (hcompleted : .completed n∉w.log)
    (hloaded : w.loaded n=some (.module n)) :
    Meets (Sound env) (Grows env (·=n)) (record (.completed n) >>= fun _ => pure (Obj.module n)) w
      fun o u => Inv env (·=n) u∧findModule env u n=some o∧Settled env u n := by
  have hskip : Inv env (·=n) w := h.imp fun _ hf => hf.elim
  have hrecord : Inv env (·=n) (w.record (.completed n)) := by
    refine hskip.record (fun m hm => ?_) (fun m hm => nomatch hm) (fun m hm => ?_)
      fun m fromList r hr => nomatch hr
    · obtain hm | hm | hm := hm
      · cases hm
      · cases hm
      · cases hm
        exact hloaded
    · cases hm
      exact ⟨hcompleted,rfl⟩
  have hgrows : Grows env (·=n) w (w.record (.completed n)) := by
    refine grows_record fun m hm => ?_
    cases hm with
    | inl heq => cases heq
    | inr heq => exact (Event.completed.inj heq).symm
  have hfound : findModule env (w.record (.completed n)) n=some (.module n) :=
    @findModule_of_loaded env (w.record (.completed n)) n _ hloaded
  refine Meets.andThen (fun _ _ _ h h' => h.trans h') (Meets.changes hgrows rfl)
    fun _ t _ (ht : t=w.record (.completed n)) => ?_
  cases ht
  refine Meets.returns (Grows.refl env _) ⟨hrecord,hfound,.inl ?_⟩
  intro hnone
  exact nomatch hloaded.symm.trans hnone

/-- A module is made and loaded for a name that is not found. Nothing is known of the name before,
so that all runs of its body are those of the load. -/
theorem newModule_meets (hload : Loads env load) (h : Sound env w)
    (hmissing : findModule env w n=none)
    (hsettled : ∀ m,m≠[] → m<+:n → m≠n → Settled env w m) (stat : Stat) (path : List Char) :
    Meets (Sound env) (Grows env fun _ => False)
      (mpObjNewModule n >>= fun o => loadModule load env n stat path >>= fun _ =>
        record (.completed n) >>= fun _ => pure o) w
      fun o u => Inv env (·=n) u∧findModule env u n=some o∧Settled env u n := by
  obtain ⟨hcreated,hgrown⟩ := @Inv.create env (·=n) _ w n h hmissing hsettled
  have hquiet := h.quiet (fun hloaded => by
    rw [findModule_of_loaded hloaded] at hmissing
    cases hmissing)
  have hloaded : (w.create n).loaded n=some (.module n) := by
    change Function.update w.loaded n (some (.module n)) n=_
    rw [update_self]
  have hnew : Meets (Sound env) (Grows env (·=n)) (mpObjNewModule n) w fun o u =>
      o=.module n∧u=w.create n := by
    rw [mpObjNewModule]
    refine Meets.reads ?_
    rw [loaded_of_findModule hmissing]
    exact Meets.andThen (fun _ _ _ h h' => h.trans h') (Meets.changes hgrown rfl)
      fun _ u _ hu => Meets.returns (Grows.refl env _) ⟨rfl,hu⟩
  have hall : Meets (Sound env) (Grows env (·=n))
      (mpObjNewModule n >>= fun o => loadModule load env n stat path >>= fun _ =>
        record (.completed n) >>= fun _ => pure o) w
      fun o u => Inv env (·=n) u∧findModule env u n=some o∧Settled env u n := by
    refine Meets.andThen (fun _ _ _ h h' => h.trans h') hnew fun o u _ hu => ?_
    obtain ⟨rfl,rfl⟩ := hu
    refine Meets.andThen (fun _ _ _ h h' => h.trans h')
      (loadModule_meets hload hcreated hloaded hquiet.1 hquiet.2 stat path) fun _ u hmoved hu => ?_
    exact completed_meets hu.1 hu.2 (hmoved.loaded n _ hloaded)
  refine hall.imp (fun t ht => ht.imp fun m hm heq => ?_) (fun _ _ hfailed => hfailed)
    fun _ _ _ hpost => hpost
  rw [heq] at hm
  exact hm (loaded_of_findModule hmissing)

/-- A component is there with its packages, or it is all of a name with a weak link. -/
theorem getComponent_meets (hload : Loads env load) (h : Sound env w) {last : Bool}
    (hweak : last=true → (∃ c,n=[c]) → findModule env w n=none)
    (hsettled : ∀ m,m≠[] → m<+:n → m≠n → Settled env w m) (stat : Stat) (path : List Char) :
    Meets (Sound env) (Grows env fun _ => False) (getComponent load env n last stat path) w
      fun o v => Inv env (·=n) v∧IsModule env v n o∧
        ((last=true∧∃ c,n=[c])∨findModule env v n=some o∧Settled env v n) := by
  rw [getComponent]
  split
  case isTrue =>
    split
    case isFalse => exact Meets.fails (Grows.refl env _) h _
    case isTrue hlast =>
      cases hlink : plainName env.weakLink n with
      | none => exact Meets.fails (Grows.refl env _) h _
      | some b =>
        have hplain := exists_of_plainName hlink
        have hnone := hweak hlast hplain
        have hinit := @callInit_meets env w n h b (loaded_of_findModule hnone) hplain
          fun o ho => by rw [hnone] at ho; cases ho
        refine Meets.andThen (fun _ _ _ h h' => h.trans h') hinit fun _ v _ hv => ?_
        refine Meets.returns (Grows.refl env _) ⟨hv.1.imp fun _ hf => hf.elim,.inr ?_,
          .inl ⟨hlast,hplain⟩⟩
        rw [hlink]
        rfl
  case isFalse =>
    refine Meets.andThen (fun _ _ _ h h' => h.trans h') (mpModuleGet_meets h n)
      fun found v _ hv => ?_
    obtain ⟨hinv,hsome,hnone⟩ := hv
    cases found with
    | some o =>
      obtain ⟨hfound,hset⟩ := hsome o rfl
      exact Meets.returns (Grows.refl env _) ⟨hinv.imp fun _ hf => hf.elim,.inl hfound,
        .inr ⟨hfound,hset⟩⟩
    | none =>
      obtain ⟨rfl,hmissing⟩ := hnone rfl
      exact (newModule_meets hload hinv hmissing hsettled stat path).imp (fun _ hm => hm)
        (fun _ _ hfailed => hfailed) fun o u _ hu => ⟨hu.1,.inl hu.2.1,.inr hu.2⟩

end Loading

/-! ## An import -/

section Importing

variable {env : Env} {load : Name→List Char→Act Unit} {w : World}

/-- Between two components: nothing is done yet, or the modules of what is done are at hand. -/
structure Between (env : Env) (done : Name) (rest : List Ident) (top outer : Option Obj)
    (w : World) : Prop where
  /-- At first there are no modules, and a single name is not there. -/
  start : done=[] → top=none∧outer=none∧∀ c,rest=[c] → findModule env w [c]=none
  /-- Later there are. -/
  inside : done≠[] → ∃ o t,outer=some o∧top=some t∧IsModule env w done o∧
    IsModule env w (done.take 1) t∧(rest≠[] → findModule env w done=some o)
  /-- The packages are there. -/
  settled : rest≠[] → ∀ m,m≠[] → m<+:done → Settled env w m

/-- A submodule is stored in the module before, if there is one. -/
theorem storeOuter_meets {done : Name} {c : Ident} {outer : Option Obj} {o : Obj}
    (h : Inv env (·=done++[c]) w) (hstart : done=[] → outer=none)
    (hinside : done≠[] → ∃ p,outer=some p∧findModule env w done=some p)
    (ho : done≠[] → findModule env w (done++[c])=some o) :
    Meets (Sound env) (Grows env fun _ => False) (storeOuter env outer c o) w fun _ v =>
      Sound env v := by
  by_cases hdone : done=[]
  · rw [hstart hdone]
    refine Meets.returns (Grows.refl env _) ?_
    refine ⟨h.known,h.started,h.completed,h.settled,h.object,h.value,fun p d hp _ => ?_⟩
    refine h.bound p d hp fun heq => hp ?_
    rw [hdone] at heq
    exact (append_inj' heq rfl).1
  · obtain ⟨p,rfl,hfound⟩ := hinside hdone
    exact mpStoreAttr_meets h hfound (ho hdone)

theorem take_one_append {done : Name} (h : done≠[]) (rest : Name) :
    (done++rest).take 1=done.take 1 := by
  cases done with
  | nil => exact absurd rfl h
  | cons c done => rfl

/-- From any component on, the modules of the whole name and of its first part are returned. -/
theorem importLoop_meets (hload : Loads env load) : ∀ (rest : List Ident) (done : Name)
    (path : List Char) (top outer : Option Obj) (w : World),Sound env w →
      Between env done rest top outer w → done++rest≠[] →
        Meets (Sound env) (Grows env fun _ => False) (importLoop load env done rest path top outer)
          w fun r v => Sound env v∧∃ o t,r=(some o,some t)∧IsModule env v (done++rest) o∧
            IsModule env v ((done++rest).take 1) t := by
  intro rest
  induction rest with
  | nil =>
    intro done path top outer w h hbetween hne
    rw [append_nil] at hne
    obtain ⟨o,t,rfl,rfl,ho,ht,-⟩ := hbetween.inside hne
    rw [append_nil]
    exact Meets.returns (Grows.refl env _) ⟨h,o,t,rfl,ho,ht⟩
  | cons c rest ih =>
    intro done path top outer w h hbetween hne
    have hcons : c::rest≠[] := cons_ne_nil c rest
    rw [importLoop]
    cases findComponent env (done++[c]) c path with
    | error e => exact Meets.fails (Grows.refl env _) h e
    | ok r =>
      obtain ⟨stat,path⟩ := r
      have hweak : rest.isEmpty=true → (∃ x,done++[c]=[x]) → findModule env w (done++[c])=none := by
        rintro hlast ⟨x,hx⟩
        have hnil : done=[] := by
          cases done with
          | nil => rfl
          | cons d done =>
            have hlen := congrArg List.length hx
            rw [length_append,length_cons,length_singleton,length_singleton] at hlen
            omega
        rw [hnil]
        exact (hbetween.start hnil).2.2 c (by rw [isEmpty_iff.mp hlast])
      have hsettled : ∀ m,m≠[] → m<+:done++[c] → m≠done++[c] → Settled env w m := by
        intro m hm hle hmc
        refine hbetween.settled hcons m hm ?_
        cases prefix_concat_iff.mp hle with
        | inl heq => exact absurd heq hmc
        | inr hprefix => exact hprefix
      refine Meets.andThen (fun _ _ _ h h' => h.trans h')
        (getComponent_meets hload h hweak hsettled stat path) fun o v hgrows hv => ?_
      obtain ⟨hskip,hmodule,hfound⟩ := hv
      have hdone : done≠[] → findModule env v (done++[c])=some o∧Settled env v (done++[c]) := by
        intro hdone
        cases hfound with
        | inr hfound => exact hfound
        | inl hweak =>
          obtain ⟨-,x,hx⟩ := hweak
          cases done with
          | nil => exact absurd rfl hdone
          | cons d done =>
            have hlen := congrArg List.length hx
            rw [length_append,length_cons,length_singleton,length_singleton] at hlen
            omega
      have hstore := @storeOuter_meets env v done c outer o hskip
        (fun hnil => (hbetween.start hnil).2.1)
        (fun hdone => by
          obtain ⟨p,t,hp,-,-,-,hmod⟩ := hbetween.inside hdone
          exact ⟨p,hp,hgrows.found _ _ (hmod hcons)⟩)
        (fun hd => (hdone hd).1)
      refine Meets.andThen (fun _ _ _ h h' => h.trans h') hstore fun _ u hmoved hu => ?_
      have hlast : rest≠[] → findModule env v (done++[c])=some o∧Settled env v (done++[c]) := by
        intro hrest
        cases hfound with
        | inr hfound => exact hfound
        | inl hweak => exact absurd (isEmpty_iff.mp hweak.1) hrest
      have hnext : Between env (done++[c]) rest (top.or (some o)) (some o) u := by
        refine ⟨fun hnil => absurd hnil (append_ne_nil_of_right_ne_nil done
          (cons_ne_nil c [])),fun _ => ?_,fun hrest m hm hle => ?_⟩
        · have hfirst : ∃ t,top.or (some o)=some t∧IsModule env u ((done++[c]).take 1) t := by
            by_cases hnil : done=[]
            · rw [(hbetween.start hnil).1,hnil]
              rw [hnil] at hmodule
              exact ⟨o,rfl,hmodule.grows hmoved⟩
            · obtain ⟨p,t,-,rfl,-,ht,-⟩ := hbetween.inside hnil
              rw [take_one_append hnil]
              exact ⟨t,rfl,(ht.grows hgrows).grows hmoved⟩
          obtain ⟨t,htop,ht⟩ := hfirst
          exact ⟨o,t,rfl,htop,hmodule.grows hmoved,ht,fun hrest =>
            hmoved.found _ _ (hlast hrest).1⟩
        · cases prefix_concat_iff.mp hle with
          | inl heq => exact heq▸(hlast hrest).2.grows hmoved
          | inr hprefix =>
            exact ((hbetween.settled hcons m hm hprefix).grows hgrows).grows hmoved
      have hassoc : done++[c]++rest=done++c::rest := append_cons done c rest ▸ rfl
      have hloop := ih (done++[c]) path (top.or (some o)) (some o) u hu hnext (hassoc▸hne)
      rw [hassoc] at hloop
      exact hloop

variable {n : Name}

/-- The first part of a name with more than one is there when the name is registered. -/
theorem Inv.first {skip : Name→Prop} (h : Inv env skip w) (hloaded : w.loaded n≠none)
    (hlen : 1 < n.length) : Settled env w (n.take 1) := by
  refine h.settled n hloaded (n.take 1) ?_ (List.take_prefix 1 n)
  cases n with
  | nil => exact absurd hlen (Nat.not_lt_zero 1)
  | cons c n => exact cons_ne_nil c []

/-- A name with more than one part is found when it is registered. -/
theorem loaded_of_found {o : Obj} (h : findModule env w n=some o)
    (hlen : 1 < n.length) : w.loaded n=some o := by
  cases hloaded : w.loaded n with
  | some o' =>
    rw [findModule_of_loaded hloaded] at h
    exact h
  | none =>
    cases hplain : plainName env.builtin n with
    | none =>
      rw [findModule,hloaded,hplain] at h
      cases h
    | some b =>
      obtain ⟨c,rfl⟩ := exists_of_plainName hplain
      exact absurd hlen (Nat.lt_irrefl 1)

/-- The import of a name returns the module of the name, or that of its first part. -/
theorem importAbsolute_meets (hload : Loads env load) (h : Sound env w) (hn : n≠[])
    (fromList : Bool) :
    Meets (Sound env) (Grows env fun _ => False) (importAbsolute load env n fromList) w fun v u =>
      Sound env u∧∃ o,v=some o∧IsModule env u (if fromList then n else n.take 1) o := by
  rw [importAbsolute]
  refine Meets.andThen (fun _ _ _ h h' => h.trans h') (mpModuleGet_meets h n)
    fun found v _ hv => ?_
  obtain ⟨hsound,hsome,hnone⟩ := hv
  cases found with
  | some o =>
    have hfound := (hsome o rfl).1
    simp only
    split
    case isTrue hleaf =>
      refine Meets.returns (Grows.refl env _) ⟨hsound,o,rfl,?_⟩
      cases fromList with
      | true => exact .inl hfound
      | false =>
        have hlen : n.length≤1 := hleaf.resolve_right Bool.false_ne_true
        rw [take_of_length_le hlen]
        exact .inl hfound
    case isFalse htop =>
      obtain ⟨hlen,hfrom⟩ := not_or.mp htop
      have hfrom' : fromList=false := Bool.eq_false_iff.mpr hfrom
      have hset := hsound.first (fun hnone => by
        rw [loaded_of_found hfound (Nat.lt_of_not_le hlen)] at hnone
        cases hnone) (Nat.lt_of_not_le hlen)
      refine (mpModuleGet_meets hsound (n.take 1)).imp (fun _ hmoves => hmoves)
        (fun _ _ hfailed => hfailed) fun r u _ hu => ⟨hu.1,?_⟩
      cases r with
      | none => exact absurd (hu.2.2 rfl).2 hset.found
      | some t =>
        refine ⟨t,rfl,?_⟩
        rw [hfrom']
        exact .inl (hu.2.1 t rfl).1
  | none =>
    obtain ⟨rfl,hmissing⟩ := hnone rfl
    have hbetween : Between env [] n none none v := by
      refine ⟨fun _ => ⟨rfl,rfl,fun c hc => hc▸hmissing⟩,fun hne => absurd rfl hne,
        fun _ m hm hle => absurd (prefix_nil.mp hle) hm⟩
    refine Meets.andThen (fun _ _ _ h h' => h.trans h')
      (importLoop_meets hload n [] [] none none v hsound hbetween hn) fun r u _ hu => ?_
    obtain ⟨hend,o,t,rfl,ho,ht⟩ := hu
    cases fromList with
    | true => exact Meets.returns (Grows.refl env _) ⟨hend,o,rfl,ho⟩
    | false => exact Meets.returns (Grows.refl env _) ⟨hend,t,rfl,ht⟩

/-- The name of an import is not empty. -/
theorem resolve_ne_nil {globals : Option Name} {s : Statement}
    (h : resolve w globals s=.ok n) : n≠[] := by
  unfold resolve at h
  split at h
  case isTrue hlevel =>
    cases h
    exact s.absolute hlevel
  case isFalse =>
    cases globals with
    | none => cases h
    | some this =>
      simp only at h
      split at h
      case isTrue => cases h
      case isFalse =>
        split at h
        case isTrue => cases h
        case isFalse hpackage =>
          cases h
          exact append_ne_nil_of_left_ne_nil hpackage s.name

/-- What an import statement returns is recorded. -/
theorem importName_meets (hload : Loads env load) (h : Sound env w) (globals : Option Name)
    (s : Statement) :
    Meets (Sound env) (Grows env fun _ => False) (importName load env globals s) w fun v u =>
      Sound env u∧∃ n,resolve w globals s=.ok n∧.returned n s.fromList v∈u.log := by
  rw [importName]
  refine Meets.reads ?_
  cases hname : resolve w globals s with
  | error e => exact Meets.fails (Grows.refl env _) h e
  | ok n =>
    refine Meets.andThen (fun _ _ _ h h' => h.trans h')
      (importAbsolute_meets hload h (resolve_ne_nil hname) s.fromList) fun v u _ hu => ?_
    have hgrows : Grows env (fun _ => False) u (u.record (.returned n s.fromList v)) := by
      refine grows_record fun m hm => ?_
      cases hm with
      | inl heq => cases heq
      | inr heq => cases heq
    have hrecord : Sound env (u.record (.returned n s.fromList v)) := by
      refine hu.1.record (fun m hm => ?_) (fun m hm => nomatch hm) (fun m hm => nomatch hm)
        fun m fromList r hr => ?_
      · obtain hm | hm | hm := hm <;> cases hm
      · cases hr
        exact hu.2
    refine Meets.andThen (fun _ _ _ h h' => h.trans h') (Meets.changes hgrows rfl)
      fun _ t _ (ht : t=u.record (.returned n s.fromList v)) => ?_
    cases ht
    exact Meets.returns (Grows.refl env _) ⟨hrecord,n,rfl,mem_cons_self⟩

end Importing

/-! ## Whole programs -/

section Programs

variable {env : Env} {w : World}

/-- The body of a module keeps the invariant if what it imports does. -/
theorem runBody_meets {doImport : Statement→Act (Option Obj)}
    (himport : ∀ s w,Sound env w → Meets (Sound env) (Grows env fun _ => False) (doImport s) w
      fun _ v => Sound env v) (n : Name) : ∀ (body : Body) (w : World),Sound env w →
      Meets (Sound env) (Grows env fun _ => False) (runBody doImport n body) w
        fun _ v => Sound env v := by
  intro body
  induction body with
  | finish => exact fun w h => Meets.returns (Grows.refl env _) h
  | raise e => exact fun w h => Meets.fails (Grows.refl env _) h e
  | importName s next ih =>
    intro w h
    refine Meets.andThen (fun _ _ _ h h' => h.trans h') (himport s w h).caught
      fun r v _ hr => ih r v ?_
    cases r with
    | ok a => exact hr.1 a rfl
    | error e => exact hr.2 e rfl
  | store c v next ih =>
    intro w h
    obtain ⟨hsound,hgrows⟩ := Inv.assign h n c v
    exact Meets.andThen (fun _ _ _ h h' => h.trans h') (Meets.changes hgrows hsound)
      fun _ u _ hu => ih u hu
  | load o c next ih => exact fun w h => Meets.reads (ih (w.attrs o c) w h)
  | packageName o next ih => exact fun w h => Meets.reads (ih _ w h)

/-- The body of a file is started once, and is not completed before its end. -/
theorem doLoad_loads {doImport : Name→Statement→Act (Option Obj)}
    (himport : ∀ n s w,Sound env w → Meets (Sound env) (Grows env fun _ => False) (doImport n s) w
      fun _ v => Sound env v) : Loads env (doLoad env doImport) := by
  intro n path w h hloaded hstarted hcompleted
  have hrecord : Sound env (w.record (.started n)) := by
    refine h.record (fun m hm => ?_) (fun m hm => ?_) (fun m hm => nomatch hm)
      fun m fromList r hr => nomatch hr
    · obtain hm | hm | hm := hm
      · cases hm
        exact hloaded
      · cases hm
      · cases hm
    · cases hm
      exact hstarted
  have hgrows : Grows env (·=n) w (w.record (.started n)) := by
    refine grows_record fun m hm => ?_
    cases hm with
    | inl heq => exact (Event.started.inj heq).symm
    | inr heq => cases heq
  refine Meets.andThen (fun _ _ _ h h' => h.trans h') (Meets.changes hgrows rfl)
    fun _ u _ (hu : u=w.record (.started n)) => ?_
  cases hu
  have hbody := @Meets.caught _ _ _ _ _ _ _ _ (Sound env)
    (runBody_meets (himport n) n (env.body path) _ hrecord)
  -- the module is registered, so no other run of its body ends while this one goes on
  have hquiet : ∀ v,Grows env (fun _ => False) (w.record (.started n)) v → .completed n∉v.log := by
    intro v hv
    have hcount := hv.completed n id (by
      intro hnone
      exact nomatch hloaded.symm.trans hnone)
    have hne : Event.started n≠.completed n := fun heq => nomatch heq
    change _=List.count (.completed n) (.started n::w.log) at hcount
    rw [count_cons_of_ne hne,count_eq_zero.mpr hcompleted] at hcount
    exact count_eq_zero.mp hcount
  have hrun : Meets (Sound env) (Grows env (·=n)) (attempt (runBody (doImport n) n (env.body path)))
      (w.record (.started n)) fun r v => Sound env v∧.completed n∉v.log∧
        v.loaded n=some (.module n) := by
    refine hbody.imp (fun v hv => hv.imp fun _ _ hf => hf.elim) (fun _ _ hf => hf)
      fun r v hv hr => ⟨?_,hquiet v hv,hv.loaded n _ hloaded⟩
    cases r with
    | ok a => exact hr.1 a rfl
    | error e => exact hr.2 e rfl
  refine Meets.andThen (fun _ _ _ h h' => h.trans h') hrun fun r v _ hv => ?_
  obtain ⟨hsound,hnot,hstays⟩ := hv
  cases r with
  | ok a => exact Meets.returns (Grows.refl env _) ⟨hsound,hnot⟩
  | error e =>
    have hraised : Sound env (v.record (.raised n)) := by
      refine hsound.record (fun m hm => ?_) (fun m hm => nomatch hm) (fun m hm => nomatch hm)
        fun m fromList r hr => nomatch hr
      obtain hm | hm | hm := hm
      · cases hm
      · cases hm
        exact hstays
      · cases hm
    have hmoves : Grows env (·=n) v (v.record (.raised n)) := by
      refine grows_record fun m hm => ?_
      cases hm with
      | inl heq => cases heq
      | inr heq => cases heq
    exact Meets.andThen (fun _ _ _ h h' => h.trans h') (Meets.changes hmoves hraised)
      fun _ u _ hu => Meets.fails (Grows.refl env _) hu e

/-- An import keeps the invariant, however deep the stack is. -/
theorem mpBuiltinImport_meets (env : Env) : ∀ (depth : ℕ) (globals : Option Name) (s : Statement)
    (w : World),Sound env w → Meets (Sound env) (Grows env fun _ => False)
      (mpBuiltinImport env depth globals s) w fun v u =>
        Sound env u∧∃ n,resolve w globals s=.ok n∧.returned n s.fromList v∈u.log := by
  intro depth
  induction depth with
  | zero =>
    intro globals s w h
    exact importName_meets (fun _ _ _ h _ _ _ => Meets.fails (Grows.refl env _) h _) h globals s
  | succ depth ih =>
    intro globals s w h
    refine importName_meets (doLoad_loads fun n s w h => ?_) h globals s
    exact (ih (some n) s w h).imp (fun _ hm => hm) (fun _ _ hf => hf) fun _ _ _ hu => hu.1

/-- At first nothing has happened. -/
theorem sound_start (env : Env) : Sound env World.start := by
  refine ⟨fun n hn => ?_,fun n => Nat.zero_le 1,fun n => Nat.zero_le 1,fun n hn => absurd rfl hn,
    fun n o ho => (nomatch ho),fun n fromList v hv => ?_,fun p c hp _ hc => ?_⟩
  · obtain hn | hn | hn := hn <;> exact absurd hn not_mem_nil
  · exact absurd hv not_mem_nil
  · exact absurd hc not_mem_nil

variable {n : Name}

/-- A settled name is found with nothing changed. -/
theorem Settled.get (h : Settled env w n) : ∃ o,mpModuleGet env n w=.ok (some o) w := by
  cases hloaded : w.loaded n with
  | some o =>
    refine ⟨o,?_⟩
    rw [mpModuleGet]
    refine (bind_ok (s := w) rfl _).trans ?_
    rw [hloaded]
    rfl
  | none =>
    obtain ⟨b,hb,hinit⟩ := h.resolve_left fun hne => hne hloaded
    refine ⟨.builtin b,?_⟩
    rw [mpModuleGet]
    refine (bind_ok (s := w) rfl _).trans ?_
    rw [hloaded,hb]
    simp only
    rw [callInit,hinit]
    rfl

/-- A registered name is imported with no body run. -/
theorem importName_registered {load : Name→List Char→Act Unit} (h : Sound env w)
    {globals : Option Name} {s : Statement} {o : Obj}
    (hname : resolve w globals s=.ok n) (hloaded : w.loaded n=some o) :
    ∃ v,importName load env globals s w=.ok v (w.record (.returned n s.fromList v)) := by
  have hget : mpModuleGet env n w=.ok (some o) w := by
    rw [mpModuleGet]
    refine (bind_ok (s := w) rfl _).trans ?_
    rw [hloaded]
    rfl
  have hne : w.loaded n≠none := by
    rw [hloaded]
    exact some_ne_none o
  have habsolute : ∃ v,importAbsolute load env n s.fromList w=.ok v w := by
    rw [importAbsolute]
    by_cases hleaf : n.length≤1∨s.fromList=true
    · refine ⟨some o,(bind_ok hget _).trans ?_⟩
      simp only [if_pos hleaf]
      rfl
    · obtain ⟨t,ht⟩ := (h.first hne (Nat.lt_of_not_le fun hle => hleaf (.inl hle))).get
      refine ⟨some t,(bind_ok hget _).trans ?_⟩
      simp only [if_neg hleaf]
      exact ht
  obtain ⟨v,hv⟩ := habsolute
  refine ⟨v,?_⟩
  rw [importName]
  refine (bind_ok (s := w) rfl _).trans ?_
  rw [hname]
  exact bind_ok hv _

/-- What the statements about imports say of the modules. -/
structure Right (env : Env) (w : World) : Prop where
  /-- A body runs at most once, and to its end at most once. -/
  once : ∀ n,w.log.count (.started n)≤1∧w.log.count (.completed n)≤1
  /-- A module whose body has raised an exception is loaded all the same. -/
  kept : ∀ n,.raised n∈w.log → w.loaded n=some (.module n)
  /-- The import of a module that is loaded returns, and runs no body. -/
  again : ∀ depth globals s n o,resolve w globals s=.ok n → w.loaded n=some o →
    ∃ v,mpBuiltinImport env depth globals s w=.ok v (w.record (.returned n s.fromList v))
  /-- A submodule that has been loaded with no exception is bound in its package. -/
  bound : ∀ p c,p≠[] → BoundAt env w p c
  /-- With a `from` list the module of the name is returned, and else the one of its first
  part. -/
  value : ∀ n fromList v,.returned n fromList v∈w.log →
    ∃ o,v=some o∧IsModule env w (if fromList then n else n.take 1) o

/-- The invariant says all of it. -/
theorem Sound.right (h : Sound env w) : Right env w := by
  refine ⟨fun n => ⟨h.started n,h.completed n⟩,fun n hn => h.known n (.inr (.inl hn)),
    fun depth globals s n o hname hloaded => ?_,fun p c hp => h.bound p c hp id,h.value⟩
  cases depth with
  | zero => exact importName_registered h hname hloaded
  | succ depth => exact importName_registered h hname hloaded

theorem resolve_program {s : Statement} (h : resolve w none s=.ok n) : n=s.name := by
  unfold resolve at h
  split at h
  case isTrue =>
    cases h
    rfl
  case isFalse => cases h

/-- All imports of a program are carried out, and what each of them returns is recorded. -/
theorem runProgram_meets (env : Env) (depth : ℕ) : ∀ (statements : List Statement) (w : World),
    Sound env w → Meets (fun _ => False) (Grows env fun _ => False)
      (runProgram env depth statements) w fun rs v => Sound env v∧
        List.Forall₂ (fun s r => ∀ o,r=.ok o → .returned s.name s.fromList o∈v.log)
          statements rs := by
  intro statements
  induction statements with
  | nil => exact fun w h => Meets.returns (Grows.refl env _) ⟨h,.nil⟩
  | cons s statements ih =>
    intro w h
    refine Meets.andThen (fun _ _ _ h h' => h.trans h')
      (mpBuiltinImport_meets env depth none s w h).caught fun r v _ hr => ?_
    have hsound : Sound env v := by
      cases r with
      | ok a => exact (hr.1 a rfl).1
      | error e => exact hr.2 e rfl
    refine Meets.andThen (fun _ _ _ h h' => h.trans h') (ih v hsound) fun rs u hgrows hu => ?_
    refine Meets.returns (Grows.refl env _) ⟨hu.1,.cons (fun o ho => ?_) hu.2⟩
    obtain ⟨-,n,hn,hmem⟩ := hr.1 o ho
    rw [resolve_program hn] at hmem
    exact hgrows.log _ hmem

end Programs

/-! ## A body that fails -/

/-- The name of the package. -/
def packageIdent : Ident := ⟨['p'],by decide⟩

/-- The name of the submodule. -/
def brokenIdent : Ident := ⟨['x'],by decide⟩

/-- A package without `__init__.py`, with one submodule whose body raises an exception. -/
def brokenTree : Env where
  stat path := if path="p".toList then .dir else if path="p/x.py".toList then .file else .noExist
  body _ := .raise (.raised 1)
  sysPath := [[]]
  builtin _ := none
  weakLink _ := none
  init _ := none
  isFixed _ := true

/-- `from p.x import` something. -/
def importBroken : Statement := ⟨[packageIdent,brokenIdent],true,0,by decide,by decide⟩

end MicroPython.ImportLoaded
