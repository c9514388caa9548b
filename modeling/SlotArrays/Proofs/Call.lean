import SlotArrays.Call

/-! What calls come back with, and calls that agree.

A sequence of calls is opened part by part, with an equation for each of them
(`bind_eq`), up to the report of the whole.

Two calls may work on containers of which one is read as the other, by a function that
forgets or renames. They `Agree` under this reading when they answer or break off alike,
emit the same events and leave containers that are again read as one another. Agreement
goes through every way in which calls are put together, so of two programs of one shape
only the parts have to be compared. -/
namespace SlotArrays.Call
variable {σ τ ε α β : Type}

/-! ### Opening calls -/

section Opening
variable {s s' : Traced σ ε} {a : α} {fault : Fault}

theorem bind_eq {x : Call σ ε α} {f : α → Call σ ε β} {r : EStateM.Result Fault (Traced σ ε) β}
    (h : x s = .ok a s') (hf : f a s' = r) : (x >>= f) s = r := by
  show EStateM.bind x f s = r
  rw [EStateM.bind, h]
  exact hf

theorem bind_error {x : Call σ ε α} {f : α → Call σ ε β} (h : x s = .error fault s') :
    (x >>= f) s = .error fault s' := by
  show EStateM.bind x f s = .error fault s'
  rw [EStateM.bind, h]

/-- Calls that come to the same are followed by the same. -/
theorem bind_congr {x y : Call σ ε α} (h : x s = y s) (f : α → Call σ ε β) :
    (x >>= f) s = (y >>= f) s := by
  show EStateM.bind x f s = EStateM.bind y f s
  rw [EStateM.bind, h, EStateM.bind]

theorem view_ok (f : σ → α) (s : Traced σ ε) : view f s = .ok (f s.held) s := rfl

theorem lift_ok {r : Except Fault α} (h : r = .ok a) : (lift r : Call σ ε α) s = .ok a s := by
  rw [h]
  rfl

theorem report_ok {c : Call σ ε α} {t : σ} (h : c ⟨t, []⟩ = .ok a s') :
    c.report t = ⟨.ok a, s'.held, s'.events⟩ := by
  rw [report, h]

theorem report_error {c : Call σ ε α} {t : σ} (h : c ⟨t, []⟩ = .error fault s') :
    c.report t = ⟨.error fault, s'.held, s'.events⟩ := by
  rw [report, h]

/-- A call that answers something else in the end. -/
theorem report_answer (c : Call σ ε α) (b : β) (t : σ) :
    (c >>= fun _ => pure b).report t =
      ⟨(c.report t).answer.map fun _ => b, (c.report t).held, (c.report t).events⟩ := by
  cases h : c ⟨t, []⟩ with
  | ok a s =>
    have hbind : (c >>= fun _ => pure b) ⟨t, []⟩ = .ok b s := bind_eq h rfl
    rw [report_ok hbind, report_ok h]
    rfl
  | error fault s =>
    have hbind : (c >>= fun _ => pure b) ⟨t, []⟩ = .error fault s := bind_error h
    rw [report_error hbind, report_error h]
    rfl

end Opening

/-! ### Agreement -/

/-- A report with the container read through `f`. -/
def Report.map (f : σ → τ) (r : Report σ ε α) : Report τ ε α := ⟨r.answer, f r.held, r.events⟩

/-- What a call comes back with, its container read through `f`. -/
def mapHeld (f : σ → τ) :
    EStateM.Result Fault (Traced σ ε) α → EStateM.Result Fault (Traced τ ε) α
  | .ok a s => .ok a ⟨f s.held, s.events⟩
  | .error fault s => .error fault ⟨f s.held, s.events⟩

/-- The calls do the same to a container and to what `f` reads it as. -/
def Agree (f : σ → τ) (x : Call σ ε α) (y : Call τ ε α) : Prop :=
  ∀ s, mapHeld f (x s) = y ⟨f s.held, s.events⟩

namespace Agree
variable {f : σ → τ}

theorem pure (a : α) : Agree f (Pure.pure a : Call σ ε α) (Pure.pure a) := fun _ => rfl

theorem bind {x : Call σ ε α} {y : Call τ ε α} {g : α → Call σ ε β} {h : α → Call τ ε β}
    (hx : Agree f x y) (hg : ∀ a, Agree f (g a) (h a)) : Agree f (x >>= g) (y >>= h) := by
  intro s
  show mapHeld f (EStateM.bind x g s) = EStateM.bind y h _
  rw [EStateM.bind, EStateM.bind, ← hx s]
  cases x s with
  | ok a s' => exact hg a s'
  | error fault s' => rfl

theorem view {g : σ → α} {h : τ → α} (hg : ∀ s, g s = h (f s)) :
    Agree f (Call.view g : Call σ ε α) (Call.view h) := by
  intro s
  show EStateM.Result.ok (g s.held) _ = _
  rw [hg]
  rfl

/-- What is read may be the container itself. -/
theorem view_bind {g : σ → Call σ ε α} {h : τ → Call τ ε α} (hg : ∀ s, Agree f (g s) (h (f s))) :
    Agree f (Call.view id >>= g) (Call.view id >>= h) := fun s => hg s.held s

theorem change {g : σ → σ} {h : τ → τ} (hg : ∀ s, f (g s) = h (f s)) :
    Agree f (Call.change g : Call σ ε Unit) (Call.change h) := by
  intro s
  show EStateM.Result.ok () (Traced.mk (f (g s.held)) s.events) = _
  rw [hg]
  rfl

theorem emit (e : ε) : Agree f (Call.emit e : Call σ ε Unit) (Call.emit e) := fun _ => rfl

theorem fail (fault : Fault) : Agree f (Call.fail fault : Call σ ε α) (Call.fail fault) :=
  fun _ => rfl

theorem lift (r : Except Fault α) : Agree f (Call.lift r : Call σ ε α) (Call.lift r) := by
  cases r with
  | ok a => exact pure a
  | error fault => exact fail fault

theorem ite {c : Prop} [Decidable c] {x x' : Call σ ε α} {y y' : Call τ ε α}
    (hx : Agree f x y) (hx' : Agree f x' y') :
    Agree f (if c then x else x') (if c then y else y') := by
  split
  · exact hx
  · exact hx'

theorem forM {entries : List β} {g : β → Call σ ε Unit} {h : β → Call τ ε Unit}
    (hg : ∀ b, Agree f (g b) (h b)) : Agree f (entries.forM g) (entries.forM h) := by
  induction entries with
  | nil => exact pure ()
  | cons b entries ih => exact (hg b).bind fun _ => ih

theorem report {x : Call σ ε α} {y : Call τ ε α} (h : Agree f x y) (s : σ) :
    (x.report s).map f = y.report (f s) := by
  rw [Call.report, Call.report, ← h ⟨s, []⟩]
  cases x ⟨s, []⟩ <;> rfl

end Agree

end SlotArrays.Call
