import Mathlib.Data.List.Basic

/-! # Runs of a step function

A step takes a state and an input to an output and the next state. The trace of a run
keeps what was seen at every step, so that a property of runs is a property of the events
of a trace. -/
namespace ElchiShield.Lib

variable {σ ι ο : Type}

structure Event (σ ι ο : Type) where
  before : σ
  input : ι
  output : ο
  after : σ

def event (step : σ → ι → ο × σ) (s : σ) (i : ι) : Event σ ι ο := ⟨s, i, (step s i).1, (step s i).2⟩

def trace (step : σ → ι → ο × σ) : σ → List ι → List (Event σ ι ο)
  | _, [] => []
  | s, i :: is => event step s i :: trace step (step s i).2 is

def runFrom (step : σ → ι → ο × σ) (s : σ) (is : List ι) : σ := is.foldl (fun s i => (step s i).2) s

/-- The rule of invariants: where steps that meet a condition keep `I` and give `P`, every
event of a run of such steps is one of `P`. -/
theorem trace_invariant {step : σ → ι → ο × σ} {C P : Event σ ι ο → Prop} {I : σ → Prop}
    (hstep : ∀ s i, I s → C (event step s i) → P (event step s i) ∧ I (step s i).2) {s : σ}
    {is : List ι} (hs : I s) (hC : ∀ e ∈ trace step s is, C e) : ∀ e ∈ trace step s is, P e := by
  induction is generalizing s with
  | nil => simp [trace]
  | cons i is ih =>
    rw [trace] at hC ⊢
    obtain ⟨hP, hI⟩ := hstep s i hs (hC _ List.mem_cons_self)
    intro e he
    rcases List.mem_cons.mp he with rfl | he
    · exact hP
    · exact ih hI (fun e he => hC e (List.mem_cons_of_mem _ he)) e he

theorem trace_input_mem {step : σ → ι → ο × σ} {s : σ} {is : List ι} {e : Event σ ι ο}
    (h : e ∈ trace step s is) : e.input ∈ is := by
  induction is generalizing s with
  | nil => cases h
  | cons i is ih =>
    rcases List.mem_cons.mp h with rfl | h
    · exact List.mem_cons_self
    · exact List.mem_cons_of_mem _ (ih h)

/-- What each of the inputs keeps, a run keeps. -/
theorem runFrom_invariant {step : σ → ι → ο × σ} {I : σ → Prop} {is : List ι}
    (hstep : ∀ i ∈ is, ∀ s, I s → I (step s i).2) {s : σ} (hs : I s) : I (runFrom step s is) := by
  induction is generalizing s with
  | nil => exact hs
  | cons i is ih =>
    exact ih (fun j hj => hstep j (List.mem_cons_of_mem _ hj)) (hstep i List.mem_cons_self s hs)

theorem runFrom_append (step : σ → ι → ο × σ) (s : σ) (is js : List ι) :
    runFrom step s (is ++ js) = runFrom step (runFrom step s is) js :=
  List.foldl_append

theorem trace_append (step : σ → ι → ο × σ) (s : σ) (is js : List ι) :
    trace step s (is ++ js) = trace step s is ++ trace step (runFrom step s is) js := by
  induction is generalizing s with
  | nil => rfl
  | cons i is ih =>
    rw [List.cons_append, trace, ih]
    rfl

theorem trace_length (step : σ → ι → ο × σ) (s : σ) (is : List ι) :
    (trace step s is).length = is.length := by
  induction is generalizing s with
  | nil => rfl
  | cons i is ih => simp [trace, ih]

/-- An event of a trace is the step on its input in the state the inputs before it lead to. -/
theorem trace_split {step : σ → ι → ο × σ} {s : σ} {is : List ι} {n : Nat} {e : Event σ ι ο}
    (h : (trace step s is)[n]? = some e) :
    ∃ pre post, is = pre ++ e.input :: post ∧ pre.length = n ∧
      e = event step (runFrom step s pre) e.input := by
  induction is generalizing s n with
  | nil => simp [trace] at h
  | cons i is ih =>
    cases n with
    | zero =>
      obtain rfl : event step s i = e := by simpa [trace] using h
      exact ⟨[], is, rfl, rfl, rfl⟩
    | succ n =>
      obtain ⟨pre, post, rfl, rfl, he⟩ := ih (s := (step s i).2) (by simpa [trace] using h)
      exact ⟨i :: pre, post, rfl, rfl, he⟩

/-- Two events of a trace, the one at the lesser place first. -/
theorem trace_split_two {step : σ → ι → ο × σ} {s : σ} {is : List ι} {m n : Nat}
    {a b : Event σ ι ο} (hlt : m < n) (ha : (trace step s is)[m]? = some a)
    (hb : (trace step s is)[n]? = some b) :
    ∃ pre mid post, is = pre ++ a.input :: (mid ++ b.input :: post) ∧
      a = event step (runFrom step s pre) a.input ∧
      b = event step (runFrom step s (pre ++ a.input :: mid)) b.input := by
  obtain ⟨before, post, rfl, rfl, hlater⟩ := trace_split hb
  have hprefix : (trace step s before)[m]? = some a := by
    rw [trace_append, List.getElem?_append_left] at ha
    · exact ha
    · rw [trace_length]
      exact hlt
  obtain ⟨pre, mid, rfl, -, hfirst⟩ := trace_split hprefix
  exact ⟨pre, mid, post, by simp, hfirst, hlater⟩

/-! ## Runs that stop

The inputs are taken up to the first one whose output stops the run. -/

def runUntil (stop : ο → Bool) (step : σ → ι → ο × σ) : σ → List ι → σ
  | s, [] => s
  | s, i :: is => if stop (step s i).1 then (step s i).2 else runUntil stop step (step s i).2 is

section
variable {stop : ο → Bool} {step : σ → ι → ο × σ}

theorem runUntil_singleton (s : σ) (i : ι) : runUntil stop step s [i] = (step s i).2 := by
  simp [runUntil]

theorem runUntil_cons_pass {s : σ} {i : ι} {is : List ι} (h : stop (step s i).1 = false) :
    runUntil stop step s (i :: is) = runUntil stop step (step s i).2 is := by
  simp [runUntil, h]

theorem runUntil_cons_stop {s : σ} {i : ι} {is : List ι} (h : stop (step s i).1 = true) :
    runUntil stop step s (i :: is) = (step s i).2 := by
  simp [runUntil, h]

/-- What each of the inputs keeps, the run keeps. -/
theorem runUntil_invariant {I : σ → Prop} {is : List ι}
    (hstep : ∀ i ∈ is, ∀ s, I s → I (step s i).2) {s : σ} (hs : I s) :
    I (runUntil stop step s is) := by
  induction is generalizing s with
  | nil => exact hs
  | cons i is ih =>
    have hi := hstep i List.mem_cons_self s hs
    unfold runUntil
    split
    · exact hi
    · exact ih (fun j hj => hstep j (List.mem_cons_of_mem _ hj)) hi

end

end ElchiShield.Lib
