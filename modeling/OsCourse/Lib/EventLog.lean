import Mathlib.Control.Monad.Writer

/-! # Computations with a log

A computation has a value and the list of the events it has logged, in their
order; one that may stop has either a value or the reason. The events are read as
steps of a state, and what holds of the state after them is derived along the
computation.
-/

namespace EventLog

universe u

variable {σ : Type*} {ε α β η : Type u}

/-- A computation that logs events. -/
abbrev Logs (ε : Type u) := Writer (List ε)

/-- A computation that logs events and may stop. -/
abbrev LogsOr (ε η : Type u) := ExceptT η (Logs ε)

def value (x : Logs ε α) : α := (Id.run x.run).1

def events (x : Logs ε α) : List ε := (Id.run x.run).2

/-- Log one event. -/
def log (e : ε) : Logs ε PUnit := tell [e]

@[simp] theorem events_log (e : ε) : events (log e) = [e] := rfl

@[simp] theorem value_bind (x : Logs ε α) (f : α → Logs ε β) :
    value (x >>= f) = value (f (value x)) := rfl

@[simp] theorem events_bind (x : Logs ε α) (f : α → Logs ε β) :
    events (x >>= f) = events x ++ events (f (value x)) := rfl

/-! ## Computations that may stop -/

/-- Log one event and go on. -/
def logOr (e : ε) : LogsOr ε η PUnit := ExceptT.lift (log e)

/-- The outcome, without the log. -/
def outcome (x : LogsOr ε η α) : Except η α := value x.run

@[simp] theorem outcome_logOr (e : ε) : outcome (logOr e : LogsOr ε η PUnit) = .ok ⟨⟩ := rfl

@[simp] theorem outcome_ofExcept (r : Except η α) : outcome (ofExcept r : LogsOr ε η α) = r := by
  cases r <;> rfl

@[simp] theorem outcome_pure (a : α) : outcome (pure a : LogsOr ε η α) = .ok a := rfl

@[simp] theorem outcome_throw (e : η) : outcome (throw e : LogsOr ε η α) = .error e := rfl

@[simp] theorem outcome_bind (x : LogsOr ε η α) (f : α → LogsOr ε η β) :
    outcome (x >>= f) = (outcome x >>= fun a => outcome (f a)) := by
  unfold outcome
  rw [ExceptT.run_bind, value_bind]
  cases value x.run <;> rfl

@[simp] theorem outcome_ite (p : Prop) [Decidable p] (x y : LogsOr ε η α) :
    outcome (if p then x else y) = if p then outcome x else outcome y := by
  split <;> rfl

/-! ## Runs -/

/-- The events lead from one state to another. -/
inductive Path (step : σ → ε → σ → Prop) : σ → List ε → σ → Prop
  | nil (s : σ) : Path step s [] s
  | cons {s t u : σ} {e : ε} {events : List ε} (first : step s e t)
      (rest : Path step t events u) : Path step s (e :: events) u

variable {step : σ → ε → σ → Prop} {s t u : σ}

theorem Path.append {first second : List ε} (h : Path step s first t) (h' : Path step t second u) :
    Path step s (first ++ second) u := by
  induction h with
  | nil s => exact h'
  | cons hstep _ ih => exact .cons hstep (ih h')

theorem Path.forall_mem {P : ε → Prop} (hstep : ∀ s e t, step s e t → P e) {events : List ε}
    (h : Path step s events t) : ∀ e ∈ events, P e := by
  induction h with
  | nil s => exact fun e he => absurd he List.not_mem_nil
  | cons first _ ih => exact List.forall_mem_cons.mpr ⟨hstep _ _ _ first, ih⟩

/-- What is logged leads from `s` to a state of which and the value `post` holds. -/
def Ensures (step : σ → ε → σ → Prop) (s : σ) (x : Logs ε α) (post : α → σ → Prop) : Prop :=
  ∃ t, Path step s (events x) t ∧ post (value x) t

theorem Ensures.pure {a : α} {post : α → σ → Prop} (h : post a s) :
    Ensures step s (pure a : Logs ε α) post :=
  ⟨s, .nil s, h⟩

theorem Ensures.mono {x : Logs ε α} {post post' : α → σ → Prop} (h : Ensures step s x post)
    (hpost : ∀ a t, post a t → post' a t) : Ensures step s x post' := by
  obtain ⟨t, hpath, hvalue⟩ := h
  exact ⟨t, hpath, hpost _ t hvalue⟩

theorem Ensures.log_bind {e : ε} {f : PUnit → Logs ε β} {post : β → σ → Prop}
    (hstep : step s e t) (h : Ensures step t (f ⟨⟩) post) : Ensures step s (log e >>= f) post := by
  obtain ⟨u, hpath, hpost⟩ := h
  refine ⟨u, ?_, hpost⟩
  rw [events_bind, events_log]
  exact .cons hstep hpath

theorem Ensures.bind {x : Logs ε α} {f : α → Logs ε β} {mid : α → σ → Prop} {post : β → σ → Prop}
    (hx : Ensures step s x mid) (hf : ∀ a t, mid a t → Ensures step t (f a) post) :
    Ensures step s (x >>= f) post := by
  obtain ⟨t, hpath, hmid⟩ := hx
  obtain ⟨u, hpath', hpost⟩ := hf _ t hmid
  refine ⟨u, ?_, hpost⟩
  rw [events_bind]
  exact hpath.append hpath'

theorem Ensures.logOr_bind {e : ε} {f : PUnit → LogsOr ε η β} {post : Except η β → σ → Prop}
    (hstep : step s e t) (h : Ensures step t (f ⟨⟩).run post) :
    Ensures step s (logOr e >>= f).run post := by
  obtain ⟨u, hpath, hpost⟩ := h
  exact ⟨u, .cons hstep hpath, hpost⟩

/-- After a computation that stops, the rest is left out. -/
theorem Ensures.bindOr {x : LogsOr ε η α} {f : α → LogsOr ε η β}
    {mid : Except η α → σ → Prop} {post : Except η β → σ → Prop} (hx : Ensures step s x.run mid)
    (hf : ∀ a t, mid (.ok a) t → Ensures step t (f a).run post)
    (hstop : ∀ e t, mid (.error e) t → post (.error e) t) : Ensures step s (x >>= f).run post := by
  rw [ExceptT.run_bind]
  apply hx.bind
  intro r t hmid
  cases r with
  | ok a => exact hf a t hmid
  | error e => exact .pure (hstop e t hmid)

end EventLog
