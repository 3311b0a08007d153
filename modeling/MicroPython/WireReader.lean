import Mathlib.Order.Defs.PartialOrder
import Mathlib.Data.List.Basic

/-!
# Readers of a stream

A reader takes items from the front of a stream while it keeps a state of its
own, and may fail. A reader reads an encoding when, on every stream that starts
with it, it gives back the value and leaves the rest. Encodings put one after
the other are read by readers run one after the other.
-/

namespace MicroPython.WireReader

/-- A reader of items `β` with a state `σ` and errors `ε`. -/
abbrev Reader (β σ ε : Type) := StateT (List β×σ) (Except ε)

variable {β σ ε α γ κ : Type}

/-- The reader takes these items, gives this value and changes its state from
`s` to `t`, whatever follows on the stream. -/
def Reads (r : Reader β σ ε α) (items : List β) (s : σ) (a : α) (t : σ) : Prop :=
  ∀ rest,r.run (items++rest,s)=.ok (a,(rest,t))

/-- Nothing is read for a value at hand. -/
theorem reads_pure (a : α) (s : σ) : Reads (pure a : Reader β σ ε α) [] s a s :=
  fun _ => rfl

variable {r : Reader β σ ε α} {f : α→Reader β σ ε γ} {s t u : σ} {a : α} {c : γ} {items : List β}

/-- Readers in sequence read encodings in sequence. -/
theorem Reads.bind {front back : List β} (hr : Reads r front s a t) (hf : Reads (f a) back t c u) :
    Reads (r >>= f) (front++back) s c u := by
  intro rest
  have hfirst := hr (back++rest)
  have hsecond := hf rest
  rw [StateT.run_bind,List.append_assoc,hfirst]
  exact hsecond

/-- A last step that reads nothing. -/
theorem Reads.bind_nil (hr : Reads r items s a t) (hf : Reads (f a) [] t c u) :
    Reads (r >>= f) items s c u := by
  have h := hr.bind hf
  rwa [List.append_nil] at h

/-- A last step that computes something. -/
theorem Reads.bind_pure (f : α→γ) (hr : Reads r items s a t) :
    Reads (r >>= fun a => pure (f a)) items s (f a) t :=
  hr.bind_nil (reads_pure (f a) t)

/-- A first step that reads nothing. -/
theorem Reads.pure_bind (hf : Reads (f a) items s c t) : Reads (pure a >>= f) items s c t :=
  (reads_pure a s).bind hf

/-- The next item, or the error of a stream that has ended. -/
def readItem (ended : ε) : Reader β σ ε β := fun (items,s) =>
  match items with
  | [] => .error ended
  | item::items => .ok (item,(items,s))

theorem reads_readItem (ended : ε) (b : β) (s : σ) : Reads (readItem ended) [b] s b s :=
  fun _ => rfl

/-- A reader run a number of times. -/
def readMany (r : Reader β σ ε α) : ℕ→Reader β σ ε (List α)
  | 0 => pure []
  | n+1 => do
    let a ← r
    let as ← readMany r n
    pure (a::as)

/-- A list is read by reading each element, where the state runs through the
elements. The values may be those of a later state `u` that all the states met
on the way grow to. -/
theorem reads_readMany [Preorder σ] {write : κ→List β} {value : κ→α}
    {next : σ→κ→σ} (hgrow : ∀ s k,s≤next s k) (ks : List κ) :
    ∀ s,ks.foldl next s≤u → (∀ k∈ks,∀ s,next s k≤u → Reads r (write k) s (value k) (next s k)) →
      Reads (readMany r ks.length) (ks.flatMap write) s (ks.map value) (ks.foldl next s) := by
  induction ks with
  | nil => exact fun s _ _ => reads_pure [] s
  | cons k ks ih =>
    intro s hu hread
    have hrest : ∀ s,s≤ks.foldl next s := by
      clear ih hu hread
      induction ks with
      | nil => exact fun s => le_refl s
      | cons k ks ih => exact fun s => le_trans (hgrow s k) (ih (next s k))
    have hfirst := hread k List.mem_cons_self s (le_trans (hrest _) hu)
    have hothers := ih (next s k) hu (fun k hk => hread k (List.mem_cons_of_mem _ hk))
    exact hfirst.bind (hothers.bind_pure (value k::·))

/-- Items copied from the stream. -/
theorem reads_items [Preorder σ] (ended : ε) (items : List β) (s : σ) :
    Reads (readMany (readItem ended) items.length) items s items s := by
  induction items with
  | nil => exact reads_pure [] s
  | cons b items ih =>
    have hfirst := reads_readItem ended b s
    exact hfirst.bind (ih.bind_pure (b::·))

end MicroPython.WireReader
