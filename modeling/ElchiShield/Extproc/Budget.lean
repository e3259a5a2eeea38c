import ElchiShield.Lib.Shared
import ElchiShield.Pipeline.Frame

/-! # The shared body budget

Package `extproc`, budget.go, with the parts of processor.go, transaction.go and decode.go that
charge it: one counter bounds the body bytes that all streams have buffered. A stream's account of
it moves in atomic steps: a load, a compare-and-swap or an addition of the counter, or a write of
the transaction, which no other stream sees. -/
namespace ElchiShield.Extproc
open ElchiShield.Lib ElchiShield.Pipeline

/-! ## Accounts -/

/-- Who called `Acquire`: `appendBody`, with the bytes that still fit under the cap of the
request, or the decoder by `ReserveBody`, with the length of the decoded body. -/
inductive Use where
  | append (room : Nat)
  | decode (length : Nat)
  deriving DecidableEq, Repr

/-- Where a stream is in the code that charges the budget. -/
inductive Point where
  | ready
  /-- In the loop of `Acquire`, before the load and with the value it loaded. -/
  | loading (n : Nat) (use : Use)
  | loaded (n : Nat) (use : Use) (cur : Int)
  /-- `Acquire` has returned; the grant is not recorded yet. -/
  | granted (grant : Nat) (use : Use)
  /-- The part of a grant the cap rejected is to be released. -/
  | returning (n : Nat)
  /-- `BeginResponse` has released the reservation and has still to zero it. -/
  | zeroing
  /-- The stream has ended and released its reservation; its transaction is to be reset. -/
  | resetting
  | closed
  deriving DecidableEq, Repr

/-- The reservation of a stream and the length of the body it holds. -/
structure Account where
  reserved : Nat := 0
  body : Nat := 0
  point : Point := .ready
  deriving DecidableEq, Repr

/-- What a stream does next with its body. `close` is the deferred release of `Process`: every
way out of the stream leads to it, a panic included. -/
inductive Call where
  | append (chunk room : Nat)
  | decode (length : Nat)
  | redact (length : Nat)
  | beginResponse
  | close
  deriving DecidableEq, Repr

/-- `Release`. -/
def release (limit : Int) (n : Nat) (inUse : Int) : Int :=
  if limit ≤ 0 ∨ n = 0 then inUse else inUse - n

/-- The call of `Acquire`: a budget that is disabled grants everything at once. -/
def acquire (limit : Int) (n : Nat) (use : Use) (a : Account) : List Effect × Account :=
  if limit ≤ 0 then ([.acquired n], { a with point := .granted n use })
  else ([], { a with point := .loading n use })

/-- One atomic step of a stream. The call is looked at where no other is under way. -/
def Account.step (limit inUse : Int) (a : Account) (call : Call) : List Effect × Int × Account :=
  match a.point with
  | .ready => match call with
    | .append chunk room =>
      if chunk = 0 then ([], inUse, a)
      else
        let (es, a) := acquire limit chunk (.append room) a
        (es, inUse, a)
    | .decode length =>
      if length ≤ a.body then ([], inUse, { a with body := length })
      else
        let (es, a) := acquire limit (length - a.body) (.decode length) a
        (es, inUse, a)
    | .redact length => ([], inUse, { a with body := length })
    | .beginResponse =>
      if a.reserved > 0 then
        ([.released a.reserved], release limit a.reserved inUse,
          { a with body := 0, point := .zeroing })
      else ([], inUse, { a with body := 0 })
    | .close =>
      ([.released a.reserved], release limit a.reserved inUse, { a with point := .resetting })
  | .loading n use => ([], inUse, { a with point := .loaded n use inUse })
  | .loaded n use cur =>
    let avail := limit - cur
    if avail ≤ 0 then ([.acquired 0], inUse, { a with point := .granted 0 use })
    else
      let grant := min n avail.toNat
      if inUse = cur then
        ([.acquired grant], cur + grant, { a with point := .granted grant use })
      else ([], inUse, { a with point := .loading n use })
  | .granted grant (.append room) =>
    let stored := min grant room
    ([], inUse,
      { reserved := a.reserved + stored
        body := a.body + stored
        point := if stored < grant then .returning (grant - stored) else .ready })
  | .granted grant (.decode length) =>
    -- a short grant leaves the body as it was received
    ([], inUse,
      { reserved := a.reserved + grant
        body := if grant = length - a.body then length else a.body
        point := .ready })
  | .returning n => ([.released n], release limit n inUse, { a with point := .ready })
  | .zeroing => ([], inUse, { a with reserved := 0, point := .ready })
  | .resetting => ([], inUse, { point := .closed })
  | .closed => ([], inUse, a)

/-- What is in flight: granted and not recorded, recorded and not released, or released and
still recorded. -/
def Account.inFlight (a : Account) : Int :=
  match a.point with
  | .granted grant _ => grant
  | .returning n => n
  | .zeroing | .resetting => -a.reserved
  | _ => 0

/-- The stream has ended. -/
def Account.ended (a : Account) : Prop := a.point = .resetting ∨ a.point = .closed

/-- The part of the counter that is a stream's. -/
def Account.held (a : Account) : Int := a.reserved + a.inFlight

section
variable (r b n : Nat) (use : Use) (cur : Int)

@[simp] theorem held_ready : (Account.mk r b .ready).held = r := Int.add_zero _
@[simp] theorem held_loading : (Account.mk r b (.loading n use)).held = r := Int.add_zero _
@[simp] theorem held_loaded : (Account.mk r b (.loaded n use cur)).held = r := Int.add_zero _
@[simp] theorem held_granted : (Account.mk r b (.granted n use)).held = r + n := rfl
@[simp] theorem held_returning : (Account.mk r b (.returning n)).held = r + n := rfl
@[simp] theorem held_zeroing : (Account.mk r b .zeroing).held = 0 := Int.add_right_neg _
@[simp] theorem held_resetting : (Account.mk r b .resetting).held = 0 := Int.add_right_neg _
@[simp] theorem held_closed : (Account.mk r b .closed).held = r := Int.add_zero _

end

/-- Streams that share a budget: any number of them, all of them new. -/
def newBudget (ι : Type) : Shared ι Account := ⟨0, fun _ => {}⟩

/-- The budget after the atomic steps of `moves`, in this order. -/
def interleaved {ι : Type} [DecidableEq ι] (limit : Int) (moves : List (ι × Call)) :
    Shared ι Account :=
  runFrom (Shared.turn (Account.step limit)) (newBudget ι) moves

/-! ## One step -/

section
variable {limit u : Int} {a : Account} {call : Call}

theorem release_eq (hlimit : 0 < limit) (n : Nat) (u : Int) : release limit n u = u - n := by
  unfold release
  split
  next h =>
    obtain hl | rfl := h
    · exact absurd hl (not_le.mpr hlimit)
    · simp
  next => rfl

theorem acquire_eq (hlimit : 0 < limit) (n : Nat) (use : Use) (a : Account) :
    acquire limit n use a = ([], { a with point := .loading n use }) := by
  simp [acquire, not_le.mpr hlimit]

/-- A step moves the counter by what the stream comes to hold. -/
theorem Account.step_held (hlimit : 0 < limit) (u : Int) (a : Account) (call : Call) :
    (a.step limit u call).2.1 - u = (a.step limit u call).2.2.held - a.held := by
  obtain ⟨r, b, p⟩ := a
  cases p with
  | ready =>
    cases call with
    | append chunk room =>
      dsimp only [Account.step]
      split <;> simp [acquire_eq hlimit]
    | decode length =>
      dsimp only [Account.step]
      split <;> simp [acquire_eq hlimit]
    | redact length => simp [Account.step]
    | beginResponse =>
      dsimp only [Account.step]
      split <;> simp [release_eq hlimit]
    | close => simp [Account.step, release_eq hlimit]
  | loading n use => simp [Account.step]
  | loaded n use cur =>
    dsimp only [Account.step]
    split
    · simp
    · split
      next hcur => simp [hcur]
      next => simp
  | granted grant use =>
    cases use with
    | append room =>
      -- what the cap rejects stays in flight until it is released
      dsimp only [Account.step]
      split
      · simp only [held_returning, held_granted]
        omega
      · simp only [held_ready, held_granted]
        omega
    | decode length => simp [Account.step]
  | returning n => simp [Account.step, release_eq hlimit]
  | zeroing => simp [Account.step]
  | resetting => simp [Account.step]
  | closed => simp [Account.step]

/-- No step takes the counter past the limit: a grant is no more than what is left of it. -/
theorem Account.step_le (hlimit : 0 < limit) (hu : u ≤ limit) (a : Account) (call : Call) :
    (a.step limit u call).2.1 ≤ limit := by
  obtain ⟨r, b, p⟩ := a
  have hrelease : ∀ n : Nat, release limit n u ≤ limit := by
    intro n
    rw [release_eq hlimit]
    omega
  cases p with
  | ready =>
    cases call with
    | append chunk room =>
      dsimp only [Account.step]
      split <;> exact hu
    | decode length =>
      dsimp only [Account.step]
      split <;> exact hu
    | redact length => exact hu
    | beginResponse =>
      dsimp only [Account.step]
      split
      · exact hrelease r
      · exact hu
    | close => exact hrelease r
  | loaded n use cur =>
    dsimp only [Account.step]
    split
    · exact hu
    · split
      · show cur + ((min n (limit - cur).toNat : Nat) : Int) ≤ limit
        omega
      · exact hu
  | granted grant use => cases use <;> exact hu
  | returning n => exact hrelease n
  | loading n use => exact hu
  | zeroing => exact hu
  | resetting => exact hu
  | closed => exact hu

/-- A redaction that is due does not lengthen the body. -/
def Modest (a : Account) (call : Call) : Prop :=
  ∀ n, call = .redact n → a.point = .ready → n ≤ a.body

/-- The state of an account by its point: a stream that is live holds no more than it has
reserved, and nothing while its reservation is given back; a closed account is empty. -/
def Account.Covered (fits : Prop) (a : Account) : Prop :=
  match a.point with
  | .zeroing => a.body = 0
  | .resetting => True
  | .closed => a.reserved = 0
  | _ => fits → a.body ≤ a.reserved

theorem Account.step_covered (hlimit : 0 < limit) {fits : Prop} (h : a.Covered fits)
    (hm : fits → Modest a call) : (a.step limit u call).2.2.Covered fits := by
  obtain ⟨r, b, p⟩ := a
  cases p with
  | ready =>
    cases call with
    | append chunk room =>
      dsimp only [Account.step]
      split
      · exact h
      · rw [acquire_eq hlimit]
        exact h
    | decode length =>
      dsimp only [Account.step]
      split
      next hle => exact fun hfits => hle.trans (h hfits)
      next =>
        rw [acquire_eq hlimit]
        exact h
    | redact length => exact fun hfits => (hm hfits length rfl rfl).trans (h hfits)
    | beginResponse =>
      dsimp only [Account.step]
      split
      · exact rfl
      · exact fun _ => Nat.zero_le _
    | close => exact trivial
  | loading n use => exact h
  | loaded n use cur =>
    dsimp only [Account.step]
    split
    · exact h
    · split <;> exact h
  | granted grant use =>
    cases use with
    | append room =>
      dsimp only [Account.step]
      split <;> exact fun hfits => Nat.add_le_add_right (h hfits) _
    | decode length =>
      intro hfits
      have hle : b ≤ r := h hfits
      show (if grant = length - b then length else b) ≤ r + grant
      split <;> omega
  | returning n => exact h
  | zeroing =>
    intro _
    show b ≤ 0
    exact Nat.le_of_eq h
  | resetting => exact rfl
  | closed => exact h

end

/-! ## Interleavings -/

section
variable {ι : Type} [DecidableEq ι] {limit : Int}

theorem held_nonneg (a : Account) : 0 ≤ a.held := by
  obtain ⟨r, b, p⟩ := a
  cases p <;> simp <;> omega

theorem interleaved_le (hlimit : 0 < limit) (moves : List (ι × Call)) :
    (interleaved limit moves).counter ≤ limit := by
  refine runFrom_invariant (I := fun s : Shared ι Account => s.counter ≤ limit) ?_ hlimit.le
  rintro ⟨i, call⟩ _ s hs
  exact Account.step_le hlimit hs (s.clients i) call

theorem interleaved_balanced [Fintype ι] (hlimit : 0 < limit) (moves : List (ι × Call)) :
    (interleaved limit moves).counter = ∑ i, ((interleaved limit moves).clients i).held := by
  have hnew : Shared.Balanced Account.held (newBudget ι) := by
    simp [Shared.Balanced, newBudget]
  exact hnew.run (fun u a call => a.step_held hlimit u call) moves

theorem turn_covered (hlimit : 0 < limit) {fits : Prop} {s : Shared ι Account} {m : ι × Call}
    (hs : ∀ i, (s.clients i).Covered fits) (hm : fits → Modest (s.clients m.1) m.2) (i : ι) :
    ((Shared.turn (Account.step limit) s m).2.clients i).Covered fits := by
  obtain ⟨j, call⟩ := m
  by_cases hj : i = j
  · subst hj
    rw [Shared.turn_self]
    exact Account.step_covered hlimit (hs i) hm
  · rw [Shared.turn_other s hj]
    exact hs i

/-- An account of a stream that has ended holds nothing. -/
theorem held_of_ended {a : Account} {fits : Prop} (hc : a.Covered fits) (h : a.ended) :
    a.held = 0 := by
  obtain ⟨r, b, p⟩ := a
  rcases h with rfl | rfl
  · exact held_resetting r b
  · have hzero : r = 0 := hc
    simp [hzero]

/-- With a positive limit and in every interleaving of the atomic steps of any number of streams,
the counter stays between zero and the limit, is the sum of the reservations and of what is in
flight, and is zero once every stream has ended. -/
theorem budget_conserved [Fintype ι] (hlimit : 0 < limit) (moves : List (ι × Call)) :
    let s := interleaved limit moves
    0 ≤ s.counter ∧ s.counter ≤ limit ∧
      s.counter = ∑ i, ((s.clients i).reserved + (s.clients i).inFlight) ∧
      ((∀ i, (s.clients i).ended) → s.counter = 0) := by
  have hbalanced := interleaved_balanced hlimit moves
  have hcovered : ∀ i, ((interleaved limit moves).clients i).Covered False := by
    refine runFrom_invariant (I := fun s : Shared ι Account => ∀ i, (s.clients i).Covered False) ?_
      (fun _ hfits => hfits.elim)
    intro m _ s hs
    exact turn_covered hlimit hs fun hfits => hfits.elim
  refine ⟨?_, interleaved_le hlimit moves, hbalanced, ?_⟩
  · rw [hbalanced]
    exact Finset.sum_nonneg fun i _ => held_nonneg _
  · intro hended
    rw [hbalanced]
    exact Finset.sum_eq_zero fun i _ => held_of_ended (hcovered i) (hended i)

end

/-- Two streams race for a budget of 10 bytes: the second one loses the compare-and-swap and is
granted what the first one left. -/
theorem race_for_ten_bytes :
    let moves : List (Bool × Call) :=
      [(false, .append 7 100), (true, .append 8 100), (false, .close), (true, .close),
        (false, .close), (true, .close), (true, .close), (true, .close)]
    let s := interleaved 10 moves
    s.counter = 10 ∧ (s.clients false).inFlight = 7 ∧ (s.clients true).inFlight = 3 ∧
      s.counter ≤ 10 := by
  intro moves s
  exact ⟨by decide +kernel, by decide +kernel, by decide +kernel,
    (budget_conserved (by decide) moves).2.1⟩

end ElchiShield.Extproc
