import Mathlib.Data.Nat.Notation

/-!
# Runs that can fail

A program changes a state and returns a value or fails, and the state stays changed when it
fails. A program meets a condition from a state when the state has only moved along a relation,
the value and the state are as the condition says, and a state in which it has failed is as another
condition says.
-/

namespace MicroPython.FallibleRuns

variable {σ ε α β : Type}

/-- The failure of a program as a value. -/
def attempt (m : EStateM ε σ α) : EStateM ε σ (Except ε α) := fun s =>
  match m s with
  | .ok a s => .ok (.ok a) s
  | .error e s => .ok (.error e) s

/-- Whether a program returns or fails, the state has moved along the relation, and it is as one
of the two conditions says. -/
def Meets (failed : σ→Prop) (moves : σ→σ→Prop) (m : EStateM ε σ α) (s : σ) (post : α→σ→Prop) :
    Prop :=
  match m s with
  | .ok a t => moves s t∧post a t
  | .error _ t => moves s t∧failed t

variable {failed : σ→Prop} {moves : σ→σ→Prop} {s : σ} {post : α→σ→Prop}

variable {m : EStateM ε σ α}

/-- What is done after a value is returned. -/
theorem bind_ok {a : α} {t : σ} (h : m s=.ok a t)
    (f : α→EStateM ε σ β) : (m >>= f) s=f a t := by simp only [bind,EStateM.bind,h]

/-- Nothing is done after a failure. -/
theorem bind_error {e : ε} {t : σ} (h : m s=.error e t)
    (f : α→EStateM ε σ β) : (m >>= f) s=.error e t := by simp only [bind,EStateM.bind,h]

theorem Meets.returns (hrefl : ∀ s,moves s s) {a : α} (h : post a s) :
    Meets failed moves (pure a : EStateM ε σ α) s post := ⟨hrefl s,h⟩

theorem Meets.fails (hrefl : ∀ s,moves s s) (h : failed s) (e : ε) :
    Meets failed moves (throw e : EStateM ε σ α) s post := ⟨hrefl s,h⟩

theorem Meets.changes {f : σ→σ} (hmoves : moves s (f s)) {post : Unit→σ→Prop}
    (h : post () (f s)) : Meets failed moves (modify f : EStateM ε σ Unit) s post :=
  ⟨hmoves,h⟩

theorem Meets.reads {f : σ→EStateM ε σ α} (h : Meets failed moves (f s) s post) :
    Meets failed moves (get >>= f) s post := h

/-- One program after another. -/
theorem Meets.andThen (htrans : ∀ a b c,moves a b → moves b c → moves a c)
    {f : α→EStateM ε σ β} {mid : α→σ→Prop} {post : β→σ→Prop} (hm : Meets failed moves m s mid)
    (hf : ∀ a t,moves s t → mid a t → Meets failed moves (f a) t post) :
    Meets failed moves (m >>= f) s post := by
  rw [Meets] at hm
  cases hrun : m s with
  | error e t =>
    rw [hrun] at hm
    rw [Meets,bind_error hrun]
    exact hm
  | ok a t =>
    have hbind := bind_ok hrun f
    rw [hrun] at hm
    have hnext := hf a t hm.1 hm.2
    rw [Meets] at hnext
    rw [Meets,hbind]
    cases hlast : f a t with
    | error e u =>
      rw [hlast] at hnext
      exact ⟨htrans s t u hm.1 hnext.1,hnext.2⟩
    | ok b u =>
      rw [hlast] at hnext
      exact ⟨htrans s t u hm.1 hnext.1,hnext.2⟩

/-- A weaker condition along a wider relation. -/
theorem Meets.imp {failed' : σ→Prop} {moves' : σ→σ→Prop} {post' : α→σ→Prop}
    (h : Meets failed moves m s post) (hmoves : ∀ t,moves s t → moves' s t)
    (hfailed : ∀ t,moves s t → failed t → failed' t)
    (hpost : ∀ a t,moves s t → post a t → post' a t) : Meets failed' moves' m s post' := by
  rw [Meets] at h ⊢
  cases hrun : m s with
  | error e t =>
    rw [hrun] at h
    exact ⟨hmoves t h.1,hfailed t h.1 h.2⟩
  | ok a t =>
    rw [hrun] at h
    exact ⟨hmoves t h.1,hpost a t h.1 h.2⟩

/-- A failure that is caught is none. -/
theorem Meets.caught {m : EStateM ε σ α} {failed' : σ→Prop} (h : Meets failed moves m s post) :
    Meets failed' moves (attempt m) s fun r t =>
      (∀ a,r=.ok a → post a t)∧∀ e,r=.error e → failed t := by
  rw [Meets] at h ⊢
  rw [attempt]
  cases hrun : m s with
  | error e t =>
    rw [hrun] at h
    exact ⟨h.1,⟨fun a heq => (nomatch heq),fun _ _ => h.2⟩⟩
  | ok a t =>
    rw [hrun] at h
    refine ⟨h.1,⟨fun b heq => ?_,fun e heq => (nomatch heq)⟩⟩
    cases heq
    exact h.2

end MicroPython.FallibleRuns
