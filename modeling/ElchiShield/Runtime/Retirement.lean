import ElchiShield.Lib.Guarded
import ElchiShield.Lib.Places
import Mathlib.Data.List.Count
import Mathlib.Logic.Function.Basic

/-! # Retired snapshots

How a snapshot that a reload has replaced is closed: streams pin the snapshot they use in two
steps (`Store.Pin` loads it and then raises its reference count), the reloader swaps in a new one
and hands the old one to the retirer, and the retirer waits for the streams before it closes it.
Snapshots are told apart by the number of those built before. -/
namespace ElchiShield.Runtime.Retirement
open ElchiShield.Lib

/-- Where `closeRetired` is: in the grace period, between two looks at the reference count, or
past its loop. -/
inductive Stage where
  | grace
  | polling
  | drained
  deriving DecidableEq

/-- A call of `closeRetired`, by the retirer or by a goroutine of its own. -/
structure Closing where
  snap : Nat
  stage : Stage
  overflow : Bool

/-- `loading` has what streams have loaded and not yet acquired, `holding` what streams have
acquired and not yet released; `replaced` is the snapshot the reloader has swapped out and not
yet handed over. `closed` counts the calls of `Close`. -/
structure State where
  active : Nat := 0
  made : Nat := 1
  isEmpty : Nat → Bool := fun x => x = 0
  refs : Nat → Int := fun _ => 0
  closed : Nat → Nat := fun _ => 0
  loading : List Nat := []
  holding : List Nat := []
  replaced : Option Nat := none
  queue : List Nat := []
  closings : List Closing := []

def queueCapacity : Nat := 64

inductive Action where
  | load
  | acquire (k : Nat)
  | release (k : Nat)
  /-- `Set` in a call of `Reload` that applies a snapshot. -/
  | swap (isEmpty : Bool)
  /-- The end of that call: the old snapshot is queued, or closed by a goroutine of its own. -/
  | retire
  /-- The retirer receives the next snapshot. -/
  | take
  /-- The condition of the loop of `closeRetired`; `expired` when the deadline has passed. -/
  | check (i : Nat) (expired : Bool)
  | close (i : Nat)

/-- `none` where the step cannot be taken. One goroutine calls `Reload`. -/
def next (s : State) : Action → Option State
  | .load => some { s with loading := s.loading ++ [s.active] }
  | .acquire k => match s.loading[k]? with
    | none => none
    | some x => some { s with
        refs := Function.update s.refs x (s.refs x + 1)
        loading := s.loading.eraseIdx k
        holding := s.holding ++ [x] }
  | .release k => match s.holding[k]? with
    | none => none
    | some x => some { s with
        refs := Function.update s.refs x (s.refs x - 1)
        holding := s.holding.eraseIdx k }
  | .swap isEmpty => match s.replaced with
    | some _ => none
    | none => some { s with
        active := s.made
        made := s.made + 1
        isEmpty := Function.update s.isEmpty s.made isEmpty
        replaced := if s.isEmpty s.active then none else some s.active }
  | .retire => match s.replaced with
    | none => none
    | some x =>
      if s.queue.length < queueCapacity then
        some { s with replaced := none, queue := s.queue ++ [x] }
      else some { s with replaced := none, closings := s.closings ++ [⟨x, .grace, true⟩] }
  | .take => match s.queue with
    | [] => none
    | x :: rest =>
      if s.closings.all (·.overflow) then
        some { s with queue := rest, closings := s.closings ++ [⟨x, .grace, false⟩] }
      else none
  | .check i expired => match s.closings[i]? with
    | none => none
    | some c =>
      if c.stage = .drained then none
      else some { s with
        closings := s.closings.set i
          { c with stage := if 0 < s.refs c.snap ∧ expired = false then .polling else .drained } }
  | .close i => match s.closings[i]? with
    | none => none
    | some c =>
      if c.stage = .drained then some { s with
        closed := Function.update s.closed c.snap (s.closed c.snap + 1)
        closings := s.closings.eraseIdx i }
      else none

def step : State → Action → Bool × State := guarded next

/-! ## What a step does -/

/-- The steps that can be taken. -/
inductive Moved (s : State) : Action → State → Prop where
  | load : Moved s .load { s with loading := s.loading ++ [s.active] }
  | acquire (k x : Nat) (h : s.loading[k]? = some x) : Moved s (.acquire k)
      { s with
        refs := Function.update s.refs x (s.refs x + 1)
        loading := s.loading.eraseIdx k
        holding := s.holding ++ [x] }
  | release (k x : Nat) (h : s.holding[k]? = some x) : Moved s (.release k)
      { s with
        refs := Function.update s.refs x (s.refs x - 1)
        holding := s.holding.eraseIdx k }
  | swap (isEmpty : Bool) (replaced : Option Nat) (hnone : s.replaced = none)
      (h : replaced = none ∨ replaced = some s.active) : Moved s (.swap isEmpty)
      { s with
        active := s.made
        made := s.made + 1
        isEmpty := Function.update s.isEmpty s.made isEmpty
        replaced }
  | queued (x : Nat) (h : s.replaced = some x) :
    Moved s .retire { s with replaced := none, queue := s.queue ++ [x] }
  | overflowed (x : Nat) (h : s.replaced = some x) : Moved s .retire
      { s with replaced := none, closings := s.closings ++ [⟨x, .grace, true⟩] }
  | took (x : Nat) (rest : List Nat) (h : s.queue = x :: rest) : Moved s .take
      { s with queue := rest, closings := s.closings ++ [⟨x, .grace, false⟩] }
  | check (i : Nat) (expired : Bool) (c : Closing) (stage : Stage) (h : s.closings[i]? = some c)
      (hstage : stage = .polling ∨ stage = .drained ∧ (s.refs c.snap ≤ 0 ∨ expired = true)) :
    Moved s (.check i expired) { s with closings := s.closings.set i { c with stage } }
  | close (i : Nat) (c : Closing) (h : s.closings[i]? = some c) (hc : c.stage = .drained) :
    Moved s (.close i)
      { s with
        closed := Function.update s.closed c.snap (s.closed c.snap + 1)
        closings := s.closings.eraseIdx i }

theorem next_moved {s s' : State} {a : Action} (h : next s a = some s') : Moved s a s' := by
  cases a with
  | load =>
    cases h
    exact .load
  | acquire k =>
    simp only [next] at h
    split at h
    next => cases h
    next x hx =>
      cases h
      exact .acquire k x hx
  | release k =>
    simp only [next] at h
    split at h
    next => cases h
    next x hx =>
      cases h
      exact .release k x hx
  | swap isEmpty =>
    simp only [next] at h
    split at h
    next => cases h
    next hnone =>
      cases h
      refine .swap isEmpty _ hnone ?_
      split
      · exact .inl rfl
      · exact .inr rfl
  | retire =>
    simp only [next] at h
    split at h
    next => cases h
    next x hx =>
      split at h
      next =>
        cases h
        exact .queued x hx
      next =>
        cases h
        exact .overflowed x hx
  | take =>
    simp only [next] at h
    split at h
    next => cases h
    next x rest hq =>
      split at h
      next =>
        cases h
        exact .took x rest hq
      next => cases h
  | check i expired =>
    simp only [next] at h
    split at h
    next => cases h
    next c hc =>
      split at h
      next => cases h
      next =>
        cases h
        refine .check i expired c _ hc ?_
        split
        next => exact .inl rfl
        next hloop =>
          refine .inr ⟨rfl, ?_⟩
          by_cases hrefs : 0 < s.refs c.snap
          · exact .inr (by simpa [hrefs] using hloop)
          · exact .inl (by omega)
  | close i =>
    simp only [next] at h
    split at h
    next => cases h
    next c hc =>
      split at h
      next hdrained =>
        cases h
        exact .close i c hc hdrained
      next => cases h

/-! ## The invariant -/

def isAt (x : Nat) (o : Option Nat) : Nat := if o = some x then 1 else 0

def inClosings (x : Nat) (closings : List Closing) : Nat :=
  (closings.map fun c => isAt x (some c.snap)).sum

@[simp] theorem inClosings_concat (x : Nat) (closings : List Closing) (c : Closing) :
    inClosings x (closings ++ [c]) = inClosings x closings + isAt x (some c.snap) := by
  simp [inClosings]

@[simp] theorem isAt_none (x : Nat) : isAt x none = 0 := rfl

@[simp] theorem isAt_self (x : Nat) : isAt x (some x) = 1 := if_pos rfl

theorem count_concat (x y : Nat) (l : List Nat) : (l ++ [y]).count x = l.count x + isAt x (some y) := by
  simp [isAt, List.count_singleton]

theorem count_cons (x y : Nat) (l : List Nat) : (y :: l).count x = l.count x + isAt x (some y) := by
  simp [isAt, List.count_cons]

/-- A snapshot is active, on its way to the retirer, about to be closed or closed, and only one
of these. Once its count has been looked at no stream can still acquire it, and once the count
was zero no stream holds it. -/
structure Inv (s : State) : Prop where
  refs : ∀ x, s.refs x = s.holding.count x
  once : ∀ x, isAt x (some s.active) + isAt x s.replaced + s.queue.count x +
    inClosings x s.closings + s.closed x ≤ if x < s.made then 1 else 0
  checked : ∀ c ∈ s.closings, c.stage ≠ .grace → c.snap ∉ s.loading
  drained : ∀ c ∈ s.closings, c.stage = .drained → c.snap ∉ s.holding
  closed : ∀ x, 0 < s.closed x → x ∉ s.loading ∧ x ∉ s.holding

theorem initial_inv : Inv {} where
  refs _ := rfl
  once x := by
    show isAt x (some 0) + 0 + 0 + 0 + 0 ≤ if x < 1 then 1 else 0
    simp only [isAt, Option.some.injEq]
    split <;> split <;> omega
  checked := by simp
  drained := by simp
  closed _ h := absurd h (Nat.lt_irrefl 0)

section
variable {s : State}

theorem inClosings_pos {closings : List Closing} {c : Closing} (h : c ∈ closings) :
    0 < inClosings c.snap closings := by
  obtain ⟨i, hi⟩ := List.mem_iff_getElem?.mp h
  unfold inClosings
  rw [sum_map_eraseIdx _ hi, isAt_self]
  omega

/-- The active snapshot is nowhere else. -/
theorem Inv.active (h : Inv s) :
    (∀ c ∈ s.closings, c.snap ≠ s.active) ∧ s.closed s.active = 0 := by
  have honce := h.once s.active
  rw [isAt_self] at honce
  have hle : (if s.active < s.made then 1 else 0) ≤ 1 := by
    split <;> omega
  refine ⟨?_, by omega⟩
  intro c hc he
  have hpos := inClosings_pos hc
  rw [he] at hpos
  omega

theorem Inv.load (h : Inv s) : Inv { s with loading := s.loading ++ [s.active] } := by
  have hactive := h.active
  refine ⟨h.refs, h.once, ?_, h.drained, ?_⟩
  · intro c hc hstage hmem
    rcases List.mem_append.mp hmem with hmem | hmem
    · exact h.checked c hc hstage hmem
    · exact hactive.1 c hc (List.mem_singleton.mp hmem)
  · intro x hx
    obtain ⟨hloading, hholding⟩ := h.closed x hx
    refine ⟨fun hmem => ?_, hholding⟩
    rcases List.mem_append.mp hmem with hmem | hmem
    · exact hloading hmem
    · rw [List.mem_singleton.mp hmem, hactive.2] at hx
      exact Nat.lt_irrefl 0 hx

theorem Inv.acquire (h : Inv s) {k y : Nat} (hk : s.loading[k]? = some y) :
    Inv { s with
      refs := Function.update s.refs y (s.refs y + 1)
      loading := s.loading.eraseIdx k
      holding := s.holding ++ [y] } := by
  have hy : y ∈ s.loading := List.mem_of_getElem? hk
  have hsub : ∀ x, x ∈ s.loading.eraseIdx k → x ∈ s.loading := fun x => List.mem_of_mem_eraseIdx
  refine ⟨?_, h.once, ?_, ?_, ?_⟩
  · intro x
    by_cases hx : x = y
    · simp [hx, h.refs]
    · simp [Function.update_of_ne hx, h.refs, Ne.symm hx]
  · intro c hc hstage hmem
    exact h.checked c hc hstage (hsub _ hmem)
  · intro c hc hstage hmem
    rcases List.mem_append.mp hmem with hmem | hmem
    · exact h.drained c hc hstage hmem
    · refine h.checked c hc (by rw [hstage]; decide) ?_
      rw [List.mem_singleton.mp hmem]
      exact hy
  · intro x hx
    obtain ⟨hloading, hholding⟩ := h.closed x hx
    refine ⟨fun hmem => hloading (hsub _ hmem), fun hmem => ?_⟩
    rcases List.mem_append.mp hmem with hmem | hmem
    · exact hholding hmem
    · rw [List.mem_singleton.mp hmem] at hloading
      exact hloading hy

theorem Inv.release (h : Inv s) {k y : Nat} (hk : s.holding[k]? = some y) :
    Inv { s with
      refs := Function.update s.refs y (s.refs y - 1)
      holding := s.holding.eraseIdx k } := by
  have hsub : ∀ x, x ∈ s.holding.eraseIdx k → x ∈ s.holding := fun x => List.mem_of_mem_eraseIdx
  refine ⟨?_, h.once, h.checked, ?_, ?_⟩
  · intro x
    have hcount := count_eraseIdx hk x
    by_cases hx : x = y
    · subst hx
      simp [h.refs, hcount]
    · simp [Function.update_of_ne hx, h.refs, hcount, Ne.symm hx]
  · intro c hc hstage hmem
    exact h.drained c hc hstage (hsub _ hmem)
  · intro x hx
    obtain ⟨hloading, hholding⟩ := h.closed x hx
    exact ⟨hloading, fun hmem => hholding (hsub _ hmem)⟩

/-- The new snapshot is nowhere yet. -/
theorem Inv.swap (h : Inv s) (isEmpty : Nat → Bool) {replaced : Option Nat}
    (hnone : s.replaced = none) (hreplaced : replaced = none ∨ replaced = some s.active) :
    Inv { s with active := s.made, made := s.made + 1, isEmpty, replaced } := by
  refine ⟨h.refs, ?_, h.checked, h.drained, h.closed⟩
  intro x
  have honce := h.once x
  have hold : isAt x replaced ≤ isAt x (some s.active) := by
    rcases hreplaced with rfl | rfl
    · exact Nat.zero_le _
    · exact Nat.le_refl _
  rw [hnone, isAt_none] at honce
  dsimp only
  by_cases hx : x = s.made
  · have hplace : isAt x (some s.made) = 1 := by rw [hx, isAt_self]
    rw [if_neg (by omega)] at honce
    rw [if_pos (by omega)]
    omega
  · have hplace : isAt x (some s.made) = 0 := by simp [isAt, Ne.symm hx]
    have hmade : (if x < s.made then 1 else 0) ≤ if x < s.made + 1 then 1 else 0 := by
      split <;> split <;> omega
    omega

theorem Inv.handOver (h : Inv s) {x : Nat} {overflow : Bool} {replaced : Option Nat}
    {queue : List Nat}
    (hplaces : ∀ y, isAt y replaced + queue.count y + isAt y (some x) =
      isAt y s.replaced + s.queue.count y) :
    Inv { s with replaced, queue, closings := s.closings ++ [⟨x, .grace, overflow⟩] } := by
  refine ⟨h.refs, ?_, ?_, ?_, h.closed⟩
  · intro y
    have honce := h.once y
    have hy := hplaces y
    simp only [inClosings_concat]
    omega
  · intro c hc hstage
    rcases List.mem_append.mp hc with hc | hc
    · exact h.checked c hc hstage
    · rw [List.mem_singleton.mp hc] at hstage
      exact absurd rfl hstage
  · intro c hc hstage
    rcases List.mem_append.mp hc with hc | hc
    · exact h.drained c hc hstage
    · rw [List.mem_singleton.mp hc] at hstage
      cases hstage

theorem Inv.check (h : Inv s) {i : Nat} {c : Closing} {stage : Stage}
    (hc : s.closings[i]? = some c) (hloading : c.snap ∉ s.loading)
    (hholding : stage = .drained → c.snap ∉ s.holding) :
    Inv { s with closings := s.closings.set i { c with stage } } := by
  refine ⟨h.refs, ?_, ?_, ?_, h.closed⟩
  · intro x
    have hset := sum_map_set (fun c : Closing => isAt x (some c.snap)) hc { c with stage }
    have honce := h.once x
    unfold inClosings at honce ⊢
    dsimp only at hset ⊢
    omega
  · intro d hd hstage
    rcases List.mem_or_eq_of_mem_set hd with hd | rfl
    · exact h.checked d hd hstage
    · exact hloading
  · intro d hd hstage
    rcases List.mem_or_eq_of_mem_set hd with hd | rfl
    · exact h.drained d hd hstage
    · exact hholding hstage

theorem Inv.close (h : Inv s) {i : Nat} {c : Closing} (hc : s.closings[i]? = some c)
    (hdrained : c.stage = .drained) :
    Inv { s with
      closed := Function.update s.closed c.snap (s.closed c.snap + 1)
      closings := s.closings.eraseIdx i } := by
  have hmem : c ∈ s.closings := List.mem_of_getElem? hc
  refine ⟨h.refs, ?_, ?_, ?_, ?_⟩
  · intro x
    have herase := sum_map_eraseIdx (fun c : Closing => isAt x (some c.snap)) hc
    have honce := h.once x
    unfold inClosings at honce ⊢
    dsimp only
    by_cases hx : x = c.snap
    · subst hx
      rw [Function.update_self]
      rw [isAt_self] at herase
      omega
    · rw [Function.update_of_ne hx]
      omega
  · intro d hd
    exact h.checked d (List.mem_of_mem_eraseIdx hd)
  · intro d hd
    exact h.drained d (List.mem_of_mem_eraseIdx hd)
  · intro x hx
    by_cases hxc : x = c.snap
    · rw [hxc]
      exact ⟨h.checked c hmem (by rw [hdrained]; decide), h.drained c hmem hdrained⟩
    · dsimp only at hx
      rw [Function.update_of_ne hxc] at hx
      exact h.closed x hx

end

/-! ## Runs in time -/

/-- The two assumptions on time: the maximum wait is not reached, and a stream that has loaded a
snapshot has acquired it when its count is first looked at. -/
def InTime (s : State) : Action → Prop
  | .check i expired => expired = false ∧
    ∀ c ∈ s.closings[i]?, c.stage = .grace → c.snap ∉ s.loading
  | _ => True

instance (s : State) : DecidablePred (InTime s)
  | .check i expired => inferInstanceAs (Decidable (expired = false ∧
    ∀ c ∈ s.closings[i]?, c.stage = .grace → c.snap ∉ s.loading))
  | .load | .acquire _ | .release _ | .swap _ | .retire | .take | .close _ => .isTrue trivial

theorem Inv.moved {s s' : State} {a : Action} (h : Inv s) (htime : InTime s a)
    (hmoved : Moved s a s') : Inv s' := by
  cases hmoved with
  | load => exact h.load
  | acquire k x hk => exact h.acquire hk
  | release k x hk => exact h.release hk
  | swap isEmpty replaced hnone hreplaced => exact h.swap _ hnone hreplaced
  | queued x hx =>
    refine ⟨h.refs, ?_, h.checked, h.drained, h.closed⟩
    intro y
    have honce := h.once y
    rw [hx] at honce
    simp only [count_concat, isAt_none]
    omega
  | overflowed x hx =>
    refine h.handOver fun y => ?_
    rw [hx, isAt_none]
    omega
  | took x rest hq =>
    refine h.handOver fun y => ?_
    rw [hq, count_cons]
    omega
  | check i expired c stage hc hstage =>
    obtain ⟨rfl, hgrace⟩ := htime
    refine h.check hc ?_ ?_
    · by_cases hfirst : c.stage = .grace
      · exact hgrace c hc hfirst
      · exact h.checked c (List.mem_of_getElem? hc) hfirst
    · rintro rfl hheld
      have hrefs := h.refs c.snap
      have hpos := List.count_pos_iff.mpr hheld
      rcases hstage with hstage | ⟨-, hzero | hexpired⟩
      · cases hstage
      · omega
      · cases hexpired
  | close i c hc hdrained => exact h.close hc hdrained

/-- In every run in time, no stream holds a closed snapshot, the active snapshot is not closed,
no reference count is negative and no snapshot is closed twice. -/
theorem pinned_never_closed (as : List Action)
    (h : ∀ e ∈ trace step {} as, InTime e.before e.input) :
    let s := runFrom step {} as
    (∀ x, 0 < s.closed x → x ∉ s.holding) ∧ s.closed s.active = 0 ∧
      (∀ x, 0 ≤ s.refs x) ∧ ∀ x, s.closed x ≤ 1 := by
  intro s
  have hinv : Inv s :=
    guarded_run (fun _ _ _ hs htime hnext => hs.moved htime (next_moved hnext)) initial_inv h
  refine ⟨fun x hx => (hinv.closed x hx).2, hinv.active.2, ?_, ?_⟩
  · intro x
    rw [hinv.refs]
    exact Int.natCast_nonneg _
  · intro x
    have honce := hinv.once x
    have hle : (if x < s.made then 1 else 0) ≤ 1 := by
      split <;> omega
    omega

/-- A stream holds a snapshot over the reload that replaces it, and the retirer looks at the
count once too early. -/
def pinnedOverReload : List Action :=
  [.swap false, .load, .acquire 0, .swap false, .retire, .take, .check 0 false, .release 0,
    .check 0 false, .close 0]

theorem released_before_close :
    let s := runFrom step {} pinnedOverReload
    s.closed 1 = 1 ∧ 1 ∉ s.holding ∧ s.active = 2 ∧ s.closed 2 = 0 := by
  intro s
  obtain ⟨hheld, hactive, -⟩ := pinned_never_closed pinnedOverReload (by decide)
  exact ⟨rfl, hheld 1 (by decide), rfl, hactive⟩

end ElchiShield.Runtime.Retirement
