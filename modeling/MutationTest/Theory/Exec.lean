import Mathlib.Data.List.Infix
import Mathlib.Tactic.Common

/-! # Programs that may raise or be killed

A program over a state ends in one of three ways: it returns, it raises an exception, or its process
is killed. The difference between the last two is what runs afterwards: a `finally` clause runs
after an exception and does not run after a kill.

`Triple P x Q` gives one postcondition for each way to end. The rules follow the constructs, so a
program is proved by composing the triples of its parts. -/

namespace Exec

/-- How a program ends. -/
inductive Outcome (ε α : Type) where
  | ok (a : α)
  | raised (e : ε)
  | killed
  deriving DecidableEq

end Exec

open Exec (Outcome)

/-- A program over states `σ` that raises `ε` and returns `α`. -/
def Exec (σ ε α : Type) : Type := σ → Outcome ε α × σ

namespace Exec

variable {σ ε α β : Type}

instance : Monad (Exec σ ε) where
  pure a := fun s => (.ok a, s)
  bind x f := fun s => match x s with
    | (.ok a, s) => f a s
    | (.raised e, s) => (.raised e, s)
    | (.killed, s) => (.killed, s)

def raise (e : ε) : Exec σ ε α := fun s => (.raised e, s)

/-- The value of a pure computation that may raise. -/
def ofExcept : Except ε α → Exec σ ε α
  | .ok a => pure a
  | .error e => raise e

/-- `try: x finally: fin`. An exception raised by `fin` replaces that of `x`. -/
def tryFinally (x : Exec σ ε α) (fin : Exec σ ε Unit) : Exec σ ε α := fun s =>
  match x s with
  | (.ok a, s) => (do fin; return a : Exec σ ε α) s
  | (.raised e, s) => (do fin; raise e : Exec σ ε α) s
  | (.killed, s) => (.killed, s)

/-- `try: x except …: handler` for the exceptions that `catches` selects. -/
def tryExcept (catches : ε → Bool) (x handler : Exec σ ε α) : Exec σ ε α := fun s =>
  match x s with
  | (.raised e, s) => if catches e then handler s else (.raised e, s)
  | r => r

/-! ## Evaluation -/

@[simp] theorem pure_apply (a : α) (s : σ) : (pure a : Exec σ ε α) s = (.ok a, s) := rfl

theorem bind_apply (x : Exec σ ε α) (f : α → Exec σ ε β) (s : σ) :
    (x >>= f) s = match x s with
      | (.ok a, s) => f a s
      | (.raised e, s) => (.raised e, s)
      | (.killed, s) => (.killed, s) := rfl

theorem bind_assoc {γ : Type} (x : Exec σ ε α) (f : α → Exec σ ε β) (g : β → Exec σ ε γ) :
    (x >>= f) >>= g = x >>= fun a => f a >>= g := by
  funext s
  simp only [bind_apply]
  match x s with
  | (.ok _, _) | (.raised _, _) | (.killed, _) => rfl

theorem bind_ok {x : Exec σ ε α} {s s' : σ} {a : α} (h : x s = (.ok a, s')) (f : α → Exec σ ε β) :
    (x >>= f) s = f a s' := by
  rw [bind_apply, h]

theorem bind_raised {x : Exec σ ε α} {s s' : σ} {e : ε} (h : x s = (.raised e, s'))
    (f : α → Exec σ ε β) : (x >>= f) s = (.raised e, s') := by
  rw [bind_apply, h]

theorem bind_killed {x : Exec σ ε α} {s s' : σ} (h : x s = (.killed, s')) (f : α → Exec σ ε β) :
    (x >>= f) s = (.killed, s') := by
  rw [bind_apply, h]

/-- Where the first program does not return, the second does not run. -/
theorem bind_stopped {x : Exec σ ε α} {s : σ} (h : ∀ a, (x s).1 ≠ .ok a) (f : α → Exec σ ε β) :
    ((x >>= f) s).2 = (x s).2 ∧ ∀ b, ((x >>= f) s).1 ≠ .ok b := by
  match hx : x s with
  | (.ok a, t) => exact absurd (by rw [hx]) (h a)
  | (.raised e, t) => rw [bind_raised hx]; simp
  | (.killed, t) => rw [bind_killed hx]; simp

theorem tryFinally_ok {x : Exec σ ε α} {s t : σ} {a : α} (h : x s = (.ok a, t))
    (fin : Exec σ ε Unit) : tryFinally x fin s = (fin >>= fun _ => pure a) t := by
  rw [tryFinally, h]

theorem tryFinally_raised {x : Exec σ ε α} {s t : σ} {e : ε} (h : x s = (.raised e, t))
    (fin : Exec σ ε Unit) : tryFinally x fin s = (fin >>= fun _ => raise e) t := by
  rw [tryFinally, h]

theorem tryFinally_killed {x : Exec σ ε α} {s t : σ} (h : x s = (.killed, t))
    (fin : Exec σ ε Unit) : tryFinally x fin s = (.killed, t) := by
  rw [tryFinally, h]

@[simp] theorem ofExcept_ok (a : α) : (ofExcept (.ok a) : Exec σ ε α) = pure a := rfl

@[simp] theorem ofExcept_error (e : ε) : (ofExcept (.error e) : Exec σ ε α) = raise e := rfl

/-! ## Triples -/

/-- Postconditions for the three ways to end. -/
structure Post (σ ε α : Type) where
  ok : α → σ → Prop
  raised : ε → σ → Prop
  killed : σ → Prop

def Post.Holds (Q : Post σ ε α) : Outcome ε α × σ → Prop
  | (.ok a, s) => Q.ok a s
  | (.raised e, s) => Q.raised e s
  | (.killed, s) => Q.killed s

/-- Every run of `x` from a state with `P` ends as `Q` says. -/
def Triple (P : σ → Prop) (x : Exec σ ε α) (Q : Post σ ε α) : Prop := ∀ s, P s → Q.Holds (x s)

/-- `x` keeps `I`, however it ends. -/
def Keeps (I : σ → Prop) (x : Exec σ ε α) : Prop := Triple I x ⟨fun _ => I, fun _ => I, I⟩

namespace Triple

variable {P P' : σ → Prop} {Q Q' : Post σ ε α}

theorem of_keeps {I : σ → Prop} {x : Exec σ ε α} (h : Keeps I x) {s : σ} (hs : I s) :
    I (x s).2 := by
  have := h s hs
  match hx : x s with
  | (.ok _, _) | (.raised _, _) | (.killed, _) => rw [hx] at this; exact this

theorem conseq {x : Exec σ ε α} (h : Triple P x Q) (hP : ∀ s, P' s → P s)
    (hok : ∀ a s, Q.ok a s → Q'.ok a s) (hraised : ∀ e s, Q.raised e s → Q'.raised e s)
    (hkilled : ∀ s, Q.killed s → Q'.killed s) : Triple P' x Q' := by
  intro s hs
  have := h s (hP s hs)
  match hx : x s with
  | (.ok a, t) => rw [hx] at this; exact hok a t this
  | (.raised e, t) => rw [hx] at this; exact hraised e t this
  | (.killed, t) => rw [hx] at this; exact hkilled t this

theorem pure {a : α} (h : ∀ s, P s → Q.ok a s) : Triple P (Pure.pure a) Q := h

theorem raise {e : ε} (h : ∀ s, P s → Q.raised e s) : Triple P (Exec.raise e) Q := h

theorem ofExcept {r : Except ε α} (hok : ∀ a, r = .ok a → ∀ s, P s → Q.ok a s)
    (herror : ∀ e, r = .error e → ∀ s, P s → Q.raised e s) : Triple P (Exec.ofExcept r) Q := by
  cases r with
  | ok a => exact hok a rfl
  | error e => exact herror e rfl

theorem bind {x : Exec σ ε β} {f : β → Exec σ ε α} {R : β → σ → Prop}
    (hx : Triple P x ⟨R, Q.raised, Q.killed⟩) (hf : ∀ b, Triple (R b) (f b) Q) :
    Triple P (x >>= f) Q := by
  intro s hs
  have := hx s hs
  rw [bind_apply]
  match hxs : x s with
  | (.ok b, t) => rw [hxs] at this; exact hf b t this
  | (.raised e, t) => rw [hxs] at this; exact this
  | (.killed, t) => rw [hxs] at this; exact this

theorem ite {c : Prop} [Decidable c] {x y : Exec σ ε α} (hx : c → Triple P x Q)
    (hy : ¬c → Triple P y Q) : Triple P (if c then x else y) Q := by
  split
  next h => exact hx h
  next h => exact hy h

/-- The body hands over to the finalizer on both of its exits; a kill skips it. -/
theorem tryFinally {x : Exec σ ε α} {fin : Exec σ ε Unit} {R : α → σ → Prop} {E : ε → σ → Prop}
    (hx : Triple P x ⟨R, E, Q.killed⟩)
    (hok : ∀ a, Triple (R a) fin ⟨fun _ => Q.ok a, Q.raised, Q.killed⟩)
    (hraised : ∀ e, Triple (E e) fin ⟨fun _ => Q.raised e, Q.raised, Q.killed⟩) :
    Triple P (Exec.tryFinally x fin) Q := by
  intro s hs
  have := hx s hs
  rw [Exec.tryFinally]
  match hxs : x s with
  | (.ok a, t) =>
    rw [hxs] at this
    exact bind (R := fun _ => Q.ok a) (hok a) (fun _ => pure fun _ h => h) t this
  | (.raised e, t) =>
    rw [hxs] at this
    exact bind (R := fun _ => Q.raised e) (hraised e) (fun _ => raise fun _ h => h) t this
  | (.killed, t) => rw [hxs] at this; exact this

theorem tryExcept {catches : ε → Bool} {x handler : Exec σ ε α} {E : ε → σ → Prop}
    (hx : Triple P x ⟨Q.ok, E, Q.killed⟩)
    (hcaught : ∀ e, catches e → Triple (E e) handler Q)
    (huncaught : ∀ e, catches e = false → ∀ s, E e s → Q.raised e s) :
    Triple P (Exec.tryExcept catches x handler) Q := by
  intro s hs
  have := hx s hs
  rw [Exec.tryExcept]
  match hxs : x s with
  | (.ok a, t) => rw [hxs] at this; exact this
  | (.killed, t) => rw [hxs] at this; exact this
  | (.raised e, t) =>
    rw [hxs] at this
    dsimp only
    split
    next hc => exact hcaught e hc t this
    next hc => exact huncaught e (by simpa using hc) t this

end Triple

namespace Keeps

variable {I : σ → Prop}

theorem pure (a : α) : Keeps I (Pure.pure a : Exec σ ε α) := Triple.pure fun _ h => h

theorem ofExcept (r : Except ε α) : Keeps I (Exec.ofExcept r : Exec σ ε α) :=
  Triple.ofExcept (fun _ _ _ h => h) fun _ _ _ h => h

theorem bind {x : Exec σ ε β} {f : β → Exec σ ε α} (hx : Keeps I x) (hf : ∀ b, Keeps I (f b)) :
    Keeps I (x >>= f) := Triple.bind hx hf

theorem tryExcept {catches : ε → Bool} {x handler : Exec σ ε α} (hx : Keeps I x)
    (hh : Keeps I handler) : Keeps I (Exec.tryExcept catches x handler) :=
  Triple.tryExcept hx (fun _ _ => hh) fun _ _ _ h => h

end Keeps

/-! ## Interrupted runs

`Follows obs x y` compares a program `x` that may stop early with the program `y` that does not: `x`
does what `y` does, or it stops at a point where the observations are the first ones of `y`. -/

section
variable {τ : Type}

structure Follows (obs : σ → List τ) (x y : Exec σ ε α) : Prop where
  /-- `x` does the same or has stopped. -/
  same_or : ∀ s, x s = y s ∨ (∀ a, (x s).1 ≠ .ok a) ∧ obs (x s).2 <+: obs (y s).2
  /-- `y` forgets no observation. -/
  grows : ∀ s, obs s <+: obs (y s).2

namespace Follows

variable {obs : σ → List τ}

theorem refl {x : Exec σ ε α} (h : ∀ s, obs s <+: obs (x s).2) : Follows obs x x :=
  ⟨fun _ => .inl rfl, h⟩

theorem pure (a : α) : Follows obs (Pure.pure a : Exec σ ε α) (Pure.pure a) :=
  refl fun _ => List.prefix_rfl

theorem raise (e : ε) : Follows obs (Exec.raise e : Exec σ ε α) (Exec.raise e) :=
  refl fun _ => List.prefix_rfl

theorem ofExcept (r : Except ε α) :
    Follows obs (Exec.ofExcept r : Exec σ ε α) (Exec.ofExcept r) := by
  cases r with
  | ok a => exact pure a
  | error e => exact raise e

theorem prefix_obs {x y : Exec σ ε α} (h : Follows obs x y) (s : σ) :
    obs (x s).2 <+: obs (y s).2 := by
  rcases h.same_or s with h | ⟨-, h⟩
  · rw [h]
  · exact h

theorem bind_grows {y : Exec σ ε α} {g : α → Exec σ ε β}
    (hg : ∀ a s, obs s <+: obs (g a s).2) (s : σ) : obs (y s).2 <+: obs ((y >>= g) s).2 := by
  rw [bind_apply]
  match hys : y s with
  | (.ok a, t) => exact hg a t
  | (.raised e, t) => exact List.prefix_rfl
  | (.killed, t) => exact List.prefix_rfl

theorem bind {x y : Exec σ ε α} {f g : α → Exec σ ε β} (hx : Follows obs x y)
    (hf : ∀ a, Follows obs (f a) (g a)) : Follows obs (x >>= f) (y >>= g) where
  same_or s := by
    rcases hx.same_or s with h | ⟨hne, hobs⟩
    · rw [bind_apply, bind_apply, h]
      match y s with
      | (.ok a, t) => exact (hf a).same_or t
      | (.raised e, t) => exact .inl rfl
      | (.killed, t) => exact .inl rfl
    · obtain ⟨hw, hne'⟩ := bind_stopped hne f
      refine .inr ⟨hne', hw ▸ hobs.trans ?_⟩
      exact bind_grows (fun a => (hf a).grows) s
  grows s := (hx.grows s).trans (bind_grows (fun a => (hf a).grows) s)

theorem ite {c : Prop} [Decidable c] {x y x' y' : Exec σ ε α} (hx : Follows obs x x')
    (hy : Follows obs y y') : Follows obs (if c then x else y) (if c then x' else y') := by
  split
  · exact hx
  · exact hy

/-- What comes after the body of a `finally` returns nothing once an exception is on its way. -/
theorem bind_raise_ne_ok (fin : Exec σ ε Unit) (e : ε) (s : σ) (a : α) :
    ((fin >>= fun _ => Exec.raise (α := α) e) s).1 ≠ .ok a := by
  rw [bind_apply]
  match fin s with
  | (.ok _, _) | (.raised _, _) | (.killed, _) => simp [Exec.raise]

theorem obs_bind_raise {fin : Exec σ ε Unit} (hobs : ∀ s, obs (fin s).2 = obs s) (e : ε) (s : σ) :
    obs ((fin >>= fun _ => Exec.raise (α := α) e) s).2 = obs s := by
  rw [bind_apply]
  have := hobs s
  match hf : fin s with
  | (.ok _, _) | (.raised _, _) | (.killed, _) => rw [hf] at this; exact this

/-- A finalizer that observes nothing. -/
theorem tryFinally {x y : Exec σ ε α} {fin fin' : Exec σ ε Unit} (hx : Follows obs x y)
    (hfin : Follows obs fin fin') (hobs : ∀ s, obs (fin s).2 = obs s) :
    Follows obs (Exec.tryFinally x fin) (Exec.tryFinally y fin') := by
  have hok : ∀ a, Follows obs (fin >>= fun _ => Pure.pure a) (fin' >>= fun _ => Pure.pure a) :=
    fun a => hfin.bind fun _ => pure (α := α) a
  have hraise : ∀ e, Follows obs (fin >>= fun _ => Exec.raise e)
      (fin' >>= fun _ => Exec.raise e) := fun e => hfin.bind fun _ => raise (α := α) e
  have hgrows : ∀ s, obs (y s).2 <+: obs (Exec.tryFinally y fin' s).2 := by
    intro s
    match hys : y s with
    | (.ok a, t) => rw [tryFinally_ok hys]; exact (hok a).grows t
    | (.raised e, t) => rw [tryFinally_raised hys]; exact (hraise e).grows t
    | (.killed, t) => rw [tryFinally_killed hys]
  refine ⟨fun s => ?_, fun s => (hx.grows s).trans (hgrows s)⟩
  rcases hx.same_or s with h | ⟨hne, hprefix⟩
  · match hys : y s with
    | (.ok a, t) =>
      rw [tryFinally_ok hys, tryFinally_ok (h.trans hys)]
      exact (hok a).same_or t
    | (.raised e, t) =>
      rw [tryFinally_raised hys, tryFinally_raised (h.trans hys)]
      exact (hraise e).same_or t
    | (.killed, t) =>
      rw [tryFinally_killed hys, tryFinally_killed (h.trans hys)]
      exact .inl rfl
  · refine .inr ?_
    match hxs : x s with
    | (.ok a, t) => exact absurd (by rw [hxs]) (hne a)
    | (.raised e, t) =>
      rw [hxs] at hprefix
      rw [tryFinally_raised hxs, obs_bind_raise hobs]
      exact ⟨bind_raise_ne_ok fin e t, hprefix.trans (hgrows s)⟩
    | (.killed, t) =>
      rw [hxs] at hprefix
      rw [tryFinally_killed hxs]
      exact ⟨by simp, hprefix.trans (hgrows s)⟩

end Follows

end

/-! ## Programs that return

`Returns s x R` is about the runs that return: their value and the state they leave satisfy `R`. -/

def Returns (s : σ) (x : Exec σ ε α) (R : α → σ → Prop) : Prop := ∀ a t, x s = (.ok a, t) → R a t

namespace Returns

variable {s : σ} {x : Exec σ ε β} {f : β → Exec σ ε α} {R : α → σ → Prop} {Q : β → σ → Prop}

theorem pure {a : α} (h : R a s) : Returns s (Pure.pure a : Exec σ ε α) R := by
  rintro _ _ he
  cases he
  exact h

theorem raise (e : ε) : Returns s (Exec.raise e : Exec σ ε α) R := fun _ _ he => nomatch he

theorem ofExcept {r : Except ε α} (h : ∀ a, r = .ok a → R a s) :
    Returns s (Exec.ofExcept r : Exec σ ε α) R := by
  cases r with
  | ok a => exact pure (h a rfl)
  | error e => exact raise e

theorem bind (hx : Returns s x Q) (hf : ∀ b t, Q b t → Returns t (f b) R) :
    Returns s (x >>= f) R := by
  intro a t he
  rw [bind_apply] at he
  match hxs : x s with
  | (.ok b, u) =>
    rw [hxs] at he
    exact hf b u (hx b u hxs) a t he
  | (.raised _, _) | (.killed, _) => rw [hxs] at he; cases he

theorem ite {c : Prop} [Decidable c] {x y : Exec σ ε α} (hx : c → Returns s x R)
    (hy : ¬c → Returns s y R) : Returns s (if c then x else y) R := by
  split
  next h => exact hx h
  next h => exact hy h

/-- A `finally` clause returns only after its body has. -/
theorem tryFinally {x : Exec σ ε α} {fin : Exec σ ε Unit} {Q : α → σ → Prop}
    (hx : Returns s x Q) (hfin : ∀ a t, Q a t → Returns t fin fun _ => R a) :
    Returns s (Exec.tryFinally x fin) R := by
  intro a t he
  match hxs : x s with
  | (.ok b, u) =>
    rw [tryFinally_ok hxs] at he
    exact bind (hfin b u (hx b u hxs)) (fun _ _ h => pure h) a t he
  | (.raised e, u) =>
    rw [tryFinally_raised hxs] at he
    exact absurd (by rw [he]) (Follows.bind_raise_ne_ok fin e u a)
  | (.killed, u) => rw [tryFinally_killed hxs] at he; cases he

/-- What holds of every end, and what holds of every return. -/
theorem and_keeps {I : σ → Prop} {x : Exec σ ε α} (hx : ∀ t, I t → Returns t x R)
    (hkeeps : Keeps I x) : Triple I x ⟨fun a t => I t ∧ R a t, fun _ => I, I⟩ := by
  intro t ht
  have hkept := hkeeps t ht
  match hxt : x t with
  | (.ok a, u) =>
    rw [hxt] at hkept
    exact ⟨hkept, hx t ht a u hxt⟩
  | (.raised e, u) | (.killed, u) =>
    rw [hxt] at hkept
    exact hkept

end Returns

/-! ## Programs that do not look

`Respects R x`: runs of `x` from related states end alike, in related states. Where `R` forgets a
part of the state, `x` does not read that part. -/

def Respects (R : σ → σ → Prop) (x : Exec σ ε α) : Prop :=
  ∀ s t, R s t → (x s).1 = (x t).1 ∧ R (x s).2 (x t).2

namespace Respects

variable {R : σ → σ → Prop}

theorem pure (a : α) : Respects R (Pure.pure a : Exec σ ε α) := fun _ _ h => ⟨rfl, h⟩

theorem raise (e : ε) : Respects R (Exec.raise e : Exec σ ε α) := fun _ _ h => ⟨rfl, h⟩

theorem ofExcept (r : Except ε α) : Respects R (Exec.ofExcept r : Exec σ ε α) := by
  cases r with
  | ok a => exact pure a
  | error e => exact raise e

theorem bind {x : Exec σ ε β} {f : β → Exec σ ε α} (hx : Respects R x)
    (hf : ∀ b, Respects R (f b)) : Respects R (x >>= f) := by
  intro s t h
  obtain ⟨hout, hrel⟩ := hx s t h
  rw [bind_apply, bind_apply]
  match hxs : x s, hxt : x t with
  | (o, s'), (o', t') =>
    rw [hxs, hxt] at hout hrel
    obtain rfl : o = o' := hout
    match o with
    | .ok b => exact hf b s' t' hrel
    | .raised _ | .killed => exact ⟨rfl, hrel⟩

theorem ite {c : Prop} [Decidable c] {x y : Exec σ ε α} (hx : Respects R x) (hy : Respects R y) :
    Respects R (if c then x else y) := by
  split
  · exact hx
  · exact hy

theorem tryExcept {catches : ε → Bool} {x handler : Exec σ ε α} (hx : Respects R x)
    (hh : Respects R handler) : Respects R (Exec.tryExcept catches x handler) := by
  intro s t h
  obtain ⟨hout, hrel⟩ := hx s t h
  rw [Exec.tryExcept, Exec.tryExcept]
  match hxs : x s, hxt : x t with
  | (o, s'), (o', t') =>
    rw [hxs, hxt] at hout hrel
    obtain rfl : o = o' := hout
    match o with
    | .ok _ | .killed => exact ⟨rfl, hrel⟩
    | .raised e =>
      dsimp only
      split
      · exact hh s' t' hrel
      · exact ⟨rfl, hrel⟩

theorem tryFinally {x : Exec σ ε α} {fin : Exec σ ε Unit} (hx : Respects R x)
    (hfin : Respects R fin) : Respects R (Exec.tryFinally x fin) := by
  intro s t h
  obtain ⟨hout, hrel⟩ := hx s t h
  rw [Exec.tryFinally, Exec.tryFinally]
  match hxs : x s, hxt : x t with
  | (o, s'), (o', t') =>
    rw [hxs, hxt] at hout hrel
    obtain rfl : o = o' := hout
    match o with
    | .ok a => exact bind hfin (fun _ => pure a) s' t' hrel
    | .raised e => exact bind hfin (fun _ => raise (α := α) e) s' t' hrel
    | .killed => exact ⟨rfl, hrel⟩

end Respects

end Exec
