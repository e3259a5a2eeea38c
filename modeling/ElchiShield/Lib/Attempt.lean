import Mathlib.Data.List.Basic

/-! # Attempts that keep their state

An attempt runs on a state and either returns a value or fails. What it did to the state
before it failed is not undone. -/
namespace ElchiShield.Lib

/-- A computation that returns has gone through each of its steps. -/
theorem bind_eq_ok {ε α β : Type} {x : Except ε α} {f : α → Except ε β} {b : β}
    (h : (x >>= f) = .ok b) : ∃ a, x = .ok a ∧ f a = .ok b := by
  cases x with
  | error e => cases h
  | ok a => exact ⟨a, rfl, h⟩

theorem exists_ok {ε α : Type} {x : Except ε α} (h : x.toOption.isSome = true) :
    ∃ a, x = .ok a := by
  cases x with
  | error e => cases h
  | ok a => exact ⟨a, rfl⟩

def Attempt (σ ε α : Type) : Type := σ → Except ε α × σ

namespace Attempt
variable {σ ε ε' α β : Type}

instance : Monad (Attempt σ ε) where
  pure a s := (.ok a, s)
  bind m f s := match m s with
    | (.ok a, s) => f a s
    | (.error e, s) => (.error e, s)

def lift (r : Except ε α) : Attempt σ ε α := fun s => (r, s)

def update (f : σ → σ) : Attempt σ ε Unit := fun s => (.ok (), f s)

def mapError (f : ε → ε') (m : Attempt σ ε α) : Attempt σ ε' α := fun s =>
  match m s with
  | (.ok a, s) => (.ok a, s)
  | (.error e, s) => (.error (f e), s)

/-- One attempt after the other, up to the first that fails. -/
def each (f : β → Attempt σ ε α) : List β → Attempt σ ε (List α)
  | [] => pure []
  | b :: bs => do
    let a ← f b
    let as ← each f bs
    return a :: as

theorem lift_ok_bind (a : α) (f : α → Attempt σ ε β) : lift (.ok a) >>= f = f a := rfl

theorem lift_error_bind (e : ε) (f : α → Attempt σ ε β) :
    (lift (.error e) : Attempt σ ε α) >>= f = lift (.error e) := rfl

theorem bind_of_ok {m : Attempt σ ε α} {f : α → Attempt σ ε β} {s t : σ} {a : α}
    (h : m s = (.ok a, t)) : (m >>= f) s = f a t := by
  simp only [bind, h]

theorem bind_of_error {m : Attempt σ ε α} {f : α → Attempt σ ε β} {s t : σ} {e : ε}
    (h : m s = (.error e, t)) : (m >>= f) s = (.error e, t) := by
  simp only [bind, h]

/-! ## How attempts end -/

/-- What holds at the end of an attempt: `Q` where it returns, `E` where it fails. -/
def Ends (Q : α → σ → Prop) (E : ε → σ → Prop) : Except ε α × σ → Prop
  | (.ok a, s) => Q a s
  | (.error e, s) => E e s

section
variable {m : Attempt σ ε α} {Q R : α → σ → Prop} {E E' : ε → σ → Prop} {s : σ}

theorem Ends.imp {r : Except ε α × σ} (h : Ends Q E r) (hQ : ∀ a s, Q a s → R a s)
    (hE : ∀ e s, E e s → E' e s) : Ends R E' r := by
  obtain ⟨e | a, s⟩ := r
  · exact hE e s h
  · exact hQ a s h

theorem Ends.and {r : Except ε α × σ} (h : Ends Q E r) (h' : Ends R E' r) :
    Ends (fun a s => Q a s ∧ R a s) (fun e s => E e s ∧ E' e s) r := by
  obtain ⟨e | a, s⟩ := r
  · exact ⟨h, h'⟩
  · exact ⟨h, h'⟩

theorem Ends.bind {f : α → Attempt σ ε β} {R : β → σ → Prop} (hm : Ends Q E (m s))
    (hf : ∀ a t, Q a t → Ends R E (f a t)) : Ends R E ((m >>= f) s) := by
  obtain ⟨r, hr⟩ : ∃ r, m s = r := ⟨_, rfl⟩
  rw [hr] at hm
  obtain ⟨e | a, t⟩ := r
  · rw [bind_of_error hr]
    exact hm
  · rw [bind_of_ok hr]
    exact hf a t hm

theorem Ends.mapError {F : ε' → σ → Prop} {g : ε → ε'} (hm : Ends Q E (m s))
    (hE : ∀ e s, E e s → F (g e) s) : Ends Q F (m.mapError g s) := by
  unfold Attempt.mapError
  obtain ⟨r, hr⟩ : ∃ r, m s = r := ⟨_, rfl⟩
  rw [hr] at hm ⊢
  obtain ⟨e | a, t⟩ := r
  · exact hE e t hm
  · exact hm

end

/-! ## One attempt follows another -/

/-- From related states both attempts return or both fail, with related results. -/
def Follows {σ' α' : Type} (R : σ' → σ → Prop) (f : α' → α) (m' : Attempt σ' ε α')
    (m : Attempt σ ε α) : Prop :=
  ∀ s' s, R s' s → (m' s').1.map f = (m s).1 ∧ R (m' s').2 (m s).2

section
variable {σ' α' β' γ : Type} {R : σ' → σ → Prop} {f : α' → α} {g : β' → β}
  {m' : Attempt σ' ε α'} {m : Attempt σ ε α}

theorem Follows.pure {a' : α'} {a : α} (h : f a' = a) :
    Follows R f (Pure.pure a' : Attempt σ' ε α') (Pure.pure a) := by
  intro s' s hs
  exact ⟨congrArg Except.ok h, hs⟩

theorem Follows.lift (r : Except ε α) : Follows R id (Attempt.lift r) (Attempt.lift r) := by
  intro s' s hs
  refine ⟨?_, hs⟩
  cases r <;> rfl

theorem Follows.bind {k' : α' → Attempt σ' ε β'} {k : α → Attempt σ ε β} (hm : Follows R f m' m)
    (hk : ∀ a', Follows R g (k' a') (k (f a'))) : Follows R g (m' >>= k') (m >>= k) := by
  intro s' s hs
  obtain ⟨hr, ht⟩ := hm s' s hs
  obtain ⟨r', hr'⟩ : ∃ r, m' s' = r := ⟨_, rfl⟩
  obtain ⟨r, hr''⟩ : ∃ r, m s = r := ⟨_, rfl⟩
  rw [hr', hr''] at hr ht
  obtain ⟨e' | a', t'⟩ := r'
  · obtain ⟨e | a, t⟩ := r
    · rw [bind_of_error hr', bind_of_error hr'']
      exact ⟨congrArg Except.error (Except.error.inj hr), ht⟩
    · cases hr
  · obtain ⟨e | a, t⟩ := r
    · cases hr
    · obtain rfl : f a' = a := Except.ok.inj hr
      rw [bind_of_ok hr', bind_of_ok hr'']
      exact hk a' t' t ht

theorem Follows.mapError (hm : Follows R f m' m) (w : ε → ε') :
    Follows R f (m'.mapError w) (m.mapError w) := by
  intro s' s hs
  obtain ⟨hr, ht⟩ := hm s' s hs
  unfold Attempt.mapError
  obtain ⟨r', hr'⟩ : ∃ r, m' s' = r := ⟨_, rfl⟩
  obtain ⟨r, hr''⟩ : ∃ r, m s = r := ⟨_, rfl⟩
  rw [hr', hr''] at hr ht ⊢
  obtain ⟨e' | a', t'⟩ := r'
  · obtain ⟨e | a, t⟩ := r
    · exact ⟨congrArg (Except.error ∘ w) (Except.error.inj hr), ht⟩
    · cases hr
  · obtain ⟨e | a, t⟩ := r
    · cases hr
    · exact ⟨congrArg Except.ok (Except.ok.inj hr), ht⟩

theorem Follows.each {p' : γ → Attempt σ' ε α'} {p : γ → Attempt σ ε α}
    (h : ∀ c, Follows R f (p' c) (p c)) (cs : List γ) :
    Follows R (List.map f) (Attempt.each p' cs) (Attempt.each p cs) := by
  induction cs with
  | nil => exact .pure rfl
  | cons c cs ih => exact (h c).bind fun a' => ih.bind fun as' => .pure rfl

end

end Attempt

end ElchiShield.Lib
