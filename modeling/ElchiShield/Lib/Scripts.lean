import ElchiShield.Lib.Chain
import Mathlib.Data.List.Infix

/-! # Scripts of calls

Code that makes calls to an object of which nothing is known but its calls: what a call returns
depends on all the calls so far, and every call may panic. Code that makes the calls of a fixed
script up to the first answer it heeds `Follows` the script; how far it gets and how it ends is then
a matter of the script alone. -/
namespace ElchiShield.Lib

/-- A piece of code that makes calls; no value is a panic. -/
def Session (κ α : Type) := List κ → Option α × List κ

namespace Session
variable {κ α β γ : Type}

def andThen (k : α → Session κ β) : Option α × List κ → Option β × List κ
  | (some a, calls) => k a calls
  | (none, calls) => (none, calls)

instance : Monad (Session κ) where
  pure a calls := (some a, calls)
  bind m k calls := andThen k (m calls)

/-- Makes a call, and returns the calls so far. -/
def call (panics : List κ → Bool) (c : κ) : Session κ (List κ) := fun calls =>
  (if panics (calls ++ [c]) then none else some (calls ++ [c]), calls ++ [c])

def callAll (panics : List κ → Bool) : List κ → Session κ Unit
  | [] => pure ()
  | c :: cs => do
    let _ ← call panics c
    callAll panics cs

theorem bind_some {m : Session κ α} {k : α → Session κ β} {calls calls' : List κ} {a : α}
    (h : m calls = (some a, calls')) : (m >>= k) calls = k a calls' := by
  show andThen k (m calls) = _
  rw [h]
  rfl

theorem bind_none {m : Session κ α} {k : α → Session κ β} {calls calls' : List κ}
    (h : m calls = (none, calls')) : (m >>= k) calls = (none, calls') := by
  show andThen k (m calls) = _
  rw [h]
  rfl

theorem assoc (m : Session κ α) (f : α → Session κ β) (g : β → Session κ γ) :
    m >>= f >>= g = m >>= fun a => f a >>= g := by
  funext calls
  show andThen g (andThen f (m calls)) = andThen _ (m calls)
  rcases m calls with ⟨_ | a, calls'⟩ <;> rfl

variable {panics : List κ → Bool} {c : κ} {calls : List κ}

theorem call_panics (h : panics (calls ++ [c]) = true) :
    call panics c calls = (none, calls ++ [c]) := by
  simp [call, h]

theorem call_returns (h : panics (calls ++ [c]) = false) :
    call panics c calls = (some (calls ++ [c]), calls ++ [c]) := by
  simp [call, h]

end Session

section
variable {κ ρ : Type} (panics : List κ → Bool) (heed : List κ → κ → Option ρ)

/-- One call of a script; a panic ends it with none. -/
def perform (c : κ) (calls : List κ) : Option (Option ρ) × List κ :=
  (if panics (calls ++ [c]) then some none else (heed (calls ++ [c]) c).map some, calls ++ [c])

/-- A script, which ends with `done` if no answer is heeded. -/
def performAll (done : ρ) (script calls : List κ) : Option ρ × List κ :=
  chain (perform panics heed) (fun _ => some done) script calls

/-- The code makes the calls of the script, and ends as the script does. -/
def Follows (done : ρ) (m : Session κ ρ) (script : List κ) : Prop :=
  ∀ calls, m calls = performAll panics heed done script calls

/-- No call of the script panics or is heeded, when it comes after `calls`. -/
def Quiet (calls script : List κ) : Prop :=
  ∀ before c, before ++ [c] <+: script →
    panics (calls ++ before ++ [c]) = false ∧ heed (calls ++ before ++ [c]) c = none

/-- The call panics or is heeded, when it comes after `calls`. -/
def Objects (calls : List κ) (c : κ) : Prop :=
  panics (calls ++ [c]) = true ∨
    panics (calls ++ [c]) = false ∧ ∃ r, heed (calls ++ [c]) c = some r

/-- The calls of a script that are made: all of them, or those up to the first that objects. -/
inductive Made (script : List κ) : List κ → Prop where
  | all (quiet : Quiet panics heed [] script) : Made script script
  | upTo {before after : List κ} {c : κ} (split : script = before ++ c :: after)
      (quiet : Quiet panics heed [] before) (objects : Objects panics heed before c) :
      Made script (before ++ [c])

end

variable {κ ρ : Type} {panics : List κ → Bool} {heed : List κ → κ → Option ρ} {done : ρ}
  {script : List κ} {c : κ}

/-! ## One call -/

section
variable {calls : List κ}

theorem performAll_panics (h : panics (calls ++ [c]) = true) :
    performAll panics heed done (c :: script) calls = (none, calls ++ [c]) :=
  chain_cons_stop (by simp [perform, h])

theorem performAll_heeds {r : ρ} (h : panics (calls ++ [c]) = false)
    (hr : heed (calls ++ [c]) c = some r) :
    performAll panics heed done (c :: script) calls = (some r, calls ++ [c]) :=
  chain_cons_stop (by simp [perform, h, hr])

theorem performAll_goes_on (h : panics (calls ++ [c]) = false) (hr : heed (calls ++ [c]) c = none) :
    performAll panics heed done (c :: script) calls =
      performAll panics heed done script (calls ++ [c]) :=
  chain_cons_pass (by simp [perform, h, hr])

end

namespace Follows
variable {m : Session κ ρ}

/-- A call, and what is made of its answer. -/
theorem cons {k : List κ → Session κ ρ}
    (hstop : ∀ calls r, heed calls c = some r → k calls calls = (some r, calls))
    (hgo : ∀ calls, heed calls c = none →
      k calls calls = performAll panics heed done script calls) :
    Follows panics heed done (Session.call panics c >>= k) (c :: script) := by
  intro calls
  cases hpanics : panics (calls ++ [c]) with
  | true => rw [Session.bind_none (Session.call_panics hpanics), performAll_panics hpanics]
  | false =>
    rw [Session.bind_some (Session.call_returns hpanics)]
    cases hr : heed (calls ++ [c]) c with
    | some r => rw [performAll_heeds hpanics hr, hstop _ r hr]
    | none => rw [performAll_goes_on hpanics hr, hgo _ hr]

/-- A call whose answer is never heeded. -/
theorem call (hc : ∀ calls, heed calls c = none) (h : Follows panics heed done m script) :
    Follows panics heed done (Session.call panics c >>= fun _ => m) (c :: script) := by
  refine .cons ?_ fun calls _ => h calls
  intro calls r hr
  rw [hc] at hr
  cases hr

theorem callAll {cs : List κ} (hcs : ∀ c ∈ cs, ∀ calls, heed calls c = none)
    (h : Follows panics heed done m script) :
    Follows panics heed done (Session.callAll panics cs >>= fun _ => m) (cs ++ script) := by
  induction cs with
  | nil => exact h
  | cons c cs ih =>
    obtain ⟨hc, hcs⟩ := List.forall_mem_cons.mp hcs
    rw [Session.callAll, Session.assoc]
    exact call hc (ih hcs)

end Follows

/-! ## How far a script gets -/

theorem Quiet.nil (calls : List κ) : Quiet panics heed calls [] := by
  intro before c h
  simp at h

theorem Quiet.mono {calls made : List κ} (h : Quiet panics heed calls script)
    (hmade : made <+: script) : Quiet panics heed calls made :=
  fun before c hc => h before c (hc.trans hmade)

theorem quiet_cons {calls : List κ} : Quiet panics heed calls (c :: script) ↔
    (panics (calls ++ [c]) = false ∧ heed (calls ++ [c]) c = none) ∧
      Quiet panics heed (calls ++ [c]) script := by
  constructor
  · intro h
    refine ⟨by simpa using h [] c (by simp), fun before d hd => ?_⟩
    simpa using h (c :: before) d (by simpa using hd)
  · rintro ⟨hfirst, hrest⟩ before d hd
    cases before with
    | nil =>
      obtain rfl : d = c := by simpa using hd
      simpa using hfirst
    | cons b before =>
      obtain ⟨rfl, hd'⟩ : b = c ∧ before ++ [d] <+: script := by simpa using hd
      simpa using hrest before d hd'

theorem performAll_quiet {calls after : List κ} (h : Quiet panics heed calls script) :
    performAll panics heed done (script ++ after) calls =
      performAll panics heed done after (calls ++ script) := by
  induction script generalizing calls with
  | nil => simp
  | cons c script ih =>
    obtain ⟨⟨hpanics, hheed⟩, hrest⟩ := quiet_cons.mp h
    rw [List.cons_append, performAll_goes_on hpanics hheed, ih hrest]
    simp

/-- The first call that objects, if there is one. -/
theorem quiet_or_first (script calls : List κ) :
    Quiet panics heed calls script ∨ ∃ before c after, script = before ++ c :: after ∧
      Quiet panics heed calls before ∧ Objects panics heed (calls ++ before) c := by
  induction script generalizing calls with
  | nil => exact .inl (.nil calls)
  | cons c script ih =>
    cases hpanics : panics (calls ++ [c]) with
    | true => exact .inr ⟨[], c, script, rfl, .nil calls, .inl (by simpa using hpanics)⟩
    | false =>
      cases hheed : heed (calls ++ [c]) c with
      | some r =>
        refine .inr ⟨[], c, script, rfl, .nil calls, .inr ⟨by simpa using hpanics, r, ?_⟩⟩
        simpa using hheed
      | none =>
        rcases ih (calls ++ [c]) with hquiet | ⟨before, d, after, rfl, hquiet, hfirst⟩
        · exact .inl (quiet_cons.mpr ⟨⟨hpanics, hheed⟩, hquiet⟩)
        · refine .inr ⟨c :: before, d, after, rfl, quiet_cons.mpr ⟨⟨hpanics, hheed⟩, hquiet⟩, ?_⟩
          simpa using hfirst

theorem performAll_of_quiet (h : Quiet panics heed [] script) :
    performAll panics heed done script [] = (some done, script) := by
  have hall : performAll panics heed done (script ++ []) [] = _ := performAll_quiet h
  rwa [List.append_nil, List.nil_append] at hall

theorem performAll_of_panic {before after : List κ} (h : Quiet panics heed [] before)
    (hpanics : panics (before ++ [c]) = true) :
    performAll panics heed done (before ++ c :: after) [] = (none, before ++ [c]) := by
  rw [performAll_quiet h, List.nil_append, performAll_panics hpanics]

theorem performAll_of_heed {before after : List κ} {r : ρ} (h : Quiet panics heed [] before)
    (hpanics : panics (before ++ [c]) = false) (hr : heed (before ++ [c]) c = some r) :
    performAll panics heed done (before ++ c :: after) [] = (some r, before ++ [c]) := by
  rw [performAll_quiet h, List.nil_append, performAll_heeds hpanics hr]

theorem Quiet.returns (h : Quiet panics heed [] script) {cs : List κ} (hne : cs ≠ [])
    (hcs : cs <+: script) : panics cs = false := by
  obtain ⟨before, c, rfl⟩ := (List.eq_nil_or_concat cs).resolve_left hne
  rw [List.concat_eq_append] at hcs ⊢
  exact (h before c hcs).1

/-- The calls of a script that are made, and when they end in a panic. -/
theorem performAll_made (done : ρ) (script : List κ) :
    ∃ r made, performAll panics heed done script [] = (r, made) ∧ Made panics heed script made ∧
      (r = none ↔ ∃ cs, cs ≠ [] ∧ cs <+: made ∧ panics cs = true) := by
  rcases quiet_or_first script [] with hquiet | ⟨before, c, after, hscript, hquiet, hfirst⟩
  · refine ⟨_, script, performAll_of_quiet hquiet, .all hquiet, iff_of_false (by simp) ?_⟩
    rintro ⟨cs, hne, hcs, hpanics⟩
    cases (hquiet.returns hne hcs).symm.trans hpanics
  · rw [List.nil_append] at hfirst
    have hmade : Made panics heed script (before ++ [c]) := .upTo hscript hquiet hfirst
    rcases hfirst with hpanics | ⟨hreturns, r, hr⟩
    · refine ⟨none, _, hscript ▸ performAll_of_panic hquiet hpanics, hmade, ?_⟩
      exact iff_of_true rfl ⟨_, by simp, List.prefix_refl _, hpanics⟩
    · refine ⟨_, _, hscript ▸ performAll_of_heed hquiet hreturns hr, hmade, ?_⟩
      refine iff_of_false (by simp) ?_
      rintro ⟨cs, hne, hcs, hpanics⟩
      rcases List.prefix_concat_iff.mp hcs with rfl | hcs
      · cases hreturns.symm.trans hpanics
      · cases (hquiet.returns hne hcs).symm.trans hpanics

end ElchiShield.Lib
