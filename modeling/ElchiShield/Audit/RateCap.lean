import ElchiShield.Audit.Buffered
import ElchiShield.Lib.Metered
import Mathlib.Data.Rat.Cast.Order

/-! # The rate cap of the audit stream

`RateLimiter`, and the buffered exporter whose workers ask it before they export an event that is no
finding. Rates and times, in seconds, are exact. -/
namespace ElchiShield.Audit
open ElchiShield.Engine ElchiShield.Lib

structure RateLimiter where
  rate : Rat
  capacity : Rat
  tokens : Rat
  last : Rat

def newRateLimiter (perSec now : Rat) : RateLimiter :=
  let capacity := if perSec < 1 then 1 else perSec
  { rate := perSec, capacity, tokens := capacity, last := now }

namespace RateLimiter

def refill (l : RateLimiter) (now : Rat) : RateLimiter :=
  if now - l.last > 0 then
    let tokens := l.tokens + (now - l.last) * l.rate
    { l with tokens := if tokens > l.capacity then l.capacity else tokens, last := now }
  else l

def take (l : RateLimiter) : RateLimiter := { l with tokens := l.tokens - 1 }

/-- A nil limiter, and one whose rate is not positive, allow everything. -/
def allow (limiter : Option RateLimiter) (now : Rat) : Bool × Option RateLimiter :=
  match limiter with
  | none => (true, none)
  | some l =>
    if l.rate ≤ 0 then (true, some l)
    else
      let l := l.refill now
      if l.tokens ≥ 1 then (true, some l.take) else (false, some l)

/-! ## The level of the bucket -/

/-- The tokens there are after a refill. -/
def level (l : RateLimiter) (t : Rat) : Rat := min l.capacity (l.tokens + l.rate * (t - l.last))

/-- A limiter of a rate and a capacity, as it can be at a time. -/
structure Valid (rate capacity t : Rat) (l : RateLimiter) : Prop where
  rate_eq : l.rate = rate
  capacity_eq : l.capacity = capacity
  nonneg : 0 ≤ l.tokens
  le_capacity : l.tokens ≤ l.capacity
  last : l.last ≤ t

section
variable {rate capacity t t' : Rat} {l : RateLimiter}

theorem level_last (h : l.tokens ≤ l.capacity) (hlast : l.last = t) : l.level t = l.tokens := by
  rw [level, hlast, sub_self, mul_zero, add_zero, min_eq_right h]

theorem Valid.later (h : l.Valid rate capacity t) (ht : t ≤ t') : l.Valid rate capacity t' :=
  ⟨h.rate_eq, h.capacity_eq, h.nonneg, h.le_capacity, le_trans h.last ht⟩

theorem Valid.level_nonneg (h : l.Valid rate capacity t) (hrate : 0 ≤ rate) : 0 ≤ l.level t := by
  have hin : 0 ≤ l.rate * (t - l.last) := by
    rw [h.rate_eq]
    exact mul_nonneg hrate (sub_nonneg.mpr h.last)
  have htokens := h.nonneg
  exact le_min (le_trans h.nonneg h.le_capacity) (by linarith)

theorem Valid.level_le (h : l.Valid rate capacity t) : l.level t ≤ capacity :=
  h.capacity_eq ▸ min_le_left _ _

theorem Valid.level_fills (h : l.Valid rate capacity t) (hrate : 0 ≤ rate) (ht : t ≤ t') :
    l.level t' ≤ l.level t + rate * (t' - t) := by
  have hin : 0 ≤ rate * (t' - t) := mul_nonneg hrate (sub_nonneg.mpr ht)
  unfold level
  rw [h.rate_eq, ← min_add_add_right]
  refine min_le_min (by linarith) (le_of_eq ?_)
  ring

theorem Valid.refill (h : l.Valid rate capacity t) (hrate : 0 ≤ rate) :
    (l.refill t).Valid rate capacity t ∧ (l.refill t).tokens = l.level t ∧
      (l.refill t).last = t := by
  unfold RateLimiter.refill
  by_cases helapsed : t - l.last > 0
  · rw [if_pos helapsed]
    have htokens : (if l.tokens + (t - l.last) * l.rate > l.capacity then l.capacity
        else l.tokens + (t - l.last) * l.rate) = l.level t := by
      rw [level, mul_comm (t - l.last)]
      by_cases hfull : l.tokens + l.rate * (t - l.last) > l.capacity
      · rw [if_pos hfull, min_eq_left (le_of_lt hfull)]
      · rw [if_neg hfull, min_eq_right (not_lt.mp hfull)]
    dsimp only
    rw [htokens]
    exact ⟨⟨h.rate_eq, h.capacity_eq, h.level_nonneg hrate, min_le_left _ _, le_refl _⟩, rfl, rfl⟩
  · rw [if_neg helapsed]
    have hlast : l.last = t := le_antisymm h.last (by linarith)
    exact ⟨h, (level_last h.le_capacity hlast).symm, hlast⟩

/-- What is allowed is taken. -/
theorem Valid.allow (h : l.Valid rate capacity t) (hrate : 0 < rate) :
    ∃ l', (allow (some l) t).2 = some l' ∧ l'.Valid rate capacity t ∧
      l'.level t + (if (allow (some l) t).1 then 1 else 0) = l.level t := by
  obtain ⟨hvalid, htokens, hlast⟩ := h.refill (le_of_lt hrate)
  have hlimits : ¬ l.rate ≤ 0 := by
    rw [h.rate_eq]
    exact not_le.mpr hrate
  by_cases htoken : (l.refill t).tokens ≥ 1
  · have hallow : RateLimiter.allow (some l) t = (true, some (l.refill t).take) := by
      simp [RateLimiter.allow, hlimits, htoken]
    have hle : (l.refill t).take.tokens ≤ (l.refill t).take.capacity :=
      le_trans (sub_le_self _ zero_le_one) hvalid.le_capacity
    rw [hallow]
    refine ⟨_, rfl, ⟨hvalid.rate_eq, hvalid.capacity_eq, sub_nonneg.mpr htoken, hle,
      hvalid.last⟩, ?_⟩
    rw [level_last hle hlast, ← htokens]
    exact sub_add_cancel _ _
  · have hallow : RateLimiter.allow (some l) t = (false, some (l.refill t)) := by
      simp [RateLimiter.allow, hlimits, htoken]
    rw [hallow]
    refine ⟨_, rfl, hvalid, ?_⟩
    rw [level_last hvalid.le_capacity hlast, htokens]
    simp

end

theorem newRateLimiter_valid (perSec now : Rat) :
    (newRateLimiter perSec now).Valid perSec (max perSec 1) now := by
  have hcapacity : (if perSec < 1 then 1 else perSec) = max perSec 1 := by
    split
    next hlt => exact (max_eq_right (le_of_lt hlt)).symm
    next hge => exact (max_eq_left (not_lt.mp hge)).symm
  have hnonneg : 0 ≤ (newRateLimiter perSec now).tokens := by
    show 0 ≤ if perSec < 1 then 1 else perSec
    rw [hcapacity]
    exact le_max_of_le_right zero_le_one
  exact ⟨rfl, hcapacity, hnonneg, le_refl _, le_refl _⟩

end RateLimiter

/-! ## The exporter with its limiter -/

namespace RateCap
open Buffered

structure Exporter where
  buffered : Buffered.State
  limiter : Option RateLimiter

def newBufferedExporter (workers : Nat) (limiter : Option RateLimiter) : Exporter :=
  ⟨Buffered.newBufferedExporter workers, limiter⟩

/-- A step of the exporter and the time on the clock. -/
structure Timed where
  action : Buffered.Action
  now : Rat

/-- Only an event that is no finding is put to the limiter, whose answer takes the place of the one
in the action. -/
def next (capacity : Nat) (s : Exporter) (i : Timed) : Option Exporter :=
  match i.action with
  | .finish worker _ answer => match s.buffered.workers[worker]? with
    | some (.exporting item _) =>
      let (allow, limiter) := if isFinding item.ev then (true, s.limiter)
        else RateLimiter.allow s.limiter i.now
      (Buffered.next capacity s.buffered (.finish worker allow answer)).map (⟨·, limiter⟩)
    | _ => none
  | a => (Buffered.next capacity s.buffered a).map (⟨·, s.limiter⟩)

def step (capacity : Nat) : Exporter → Timed → Bool × Exporter := guarded (next capacity)

/-- An event is recorded in the step. -/
def Records (e : Lib.Event Exporter Timed Bool) (item : Item) (fate : Fate) : Prop :=
  e.after.buffered.fates = e.before.buffered.fates ++ [(item, fate)]

/-- An event that is no finding was handed to the inner exporter in the step. -/
def handed (e : Lib.Event Exporter Timed Bool) : Bool :=
  (e.after.buffered.fates.drop e.before.buffered.fates.length).any fun p =>
    !isFinding p.1.ev && decide (p.2 ≠ .dropped)

/-- What a step of the exporter adds to the record: nothing, a drop where the exporter is closing or
the queue is full, or what a worker made of an event. -/
theorem Moved.fates {capacity : Nat} {s s' : Buffered.State} {a : Buffered.Action}
    (h : Moved capacity s a s') :
    (s'.fates = s.fates ∧ ∀ i allow answer, a ≠ .finish i allow answer) ∨
    (∃ item, s'.fates = s.fates ++ [(item, .dropped)] ∧
      (s.done = true ∨ capacity ≤ s.queue.length) ∧ ∀ i allow answer, a ≠ .finish i allow answer) ∨
    ∃ i allow answer item draining, a = .finish i allow answer ∧
      s.workers[i]? = some (.exporting item draining) ∧
      s'.fates = s.fates ++ [(item, «export» allow answer item.ev)] := by
  cases h with
  | called | enqueued | took | sawDone | quitted | closes | closeReturned =>
    exact .inl ⟨rfl, by simp⟩
  | refused ev hdone => exact .inr (.inl ⟨_, rfl, .inl hdone, by simp⟩)
  | gaveUp k item hk hfull => exact .inr (.inl ⟨_, rfl, hfull, by simp⟩)
  | finished i allow answer item draining hi =>
    exact .inr (.inr ⟨i, allow, answer, item, draining, rfl, hi, rfl⟩)

/-- A step that can be taken: one of the exporter, with the answer of the limiter where it is asked. -/
inductive Took (capacity : Nat) (s : Exporter) (i : Timed) (s' : Exporter) : Prop where
  | unasked (a : Buffered.Action) (moved : Moved capacity s.buffered a s'.buffered)
      (limiter : s'.limiter = s.limiter)
      (finding : ∀ worker allow answer item draining, a = .finish worker allow answer →
        s.buffered.workers[worker]? = some (.exporting item draining) → isFinding item.ev = true)
  | asked (worker : Nat) (answer : Answer) (item : Item) (draining : Bool)
      (exporting : s.buffered.workers[worker]? = some (.exporting item draining))
      (event : isFinding item.ev = false)
      (moved : Moved capacity s.buffered
        (.finish worker (RateLimiter.allow s.limiter i.now).1 answer) s'.buffered)
      (limiter : s'.limiter = (RateLimiter.allow s.limiter i.now).2)

theorem next_took {capacity : Nat} {s s' : Exporter} {i : Timed}
    (h : next capacity s i = some s') : Took capacity s i s' := by
  have hother : ∀ a : Buffered.Action, (∀ worker allow answer, a ≠ .finish worker allow answer) →
      (Buffered.next capacity s.buffered a).map (⟨·, s.limiter⟩) = some s' →
      Took capacity s i s' := by
    intro a ha hnext
    obtain ⟨b, hb, rfl⟩ := Option.map_eq_some_iff.mp hnext
    exact .unasked a (next_moved hb) rfl fun worker allow answer _ _ heq =>
      absurd heq (ha worker allow answer)
  obtain ⟨a, now⟩ := i
  cases a with
  | finish worker allow answer =>
    simp only [next] at h
    split at h
    next item draining hworker =>
      cases hfinding : isFinding item.ev with
      | true =>
        simp only [hfinding, if_true] at h
        obtain ⟨b, hb, rfl⟩ := Option.map_eq_some_iff.mp h
        refine .unasked _ (next_moved hb) rfl fun w' allow' answer' item' draining' heq hw' => ?_
        cases heq
        cases hworker.symm.trans hw'
        exact hfinding
      | false =>
        simp only [hfinding, Bool.false_eq_true, if_false] at h
        obtain ⟨b, hb, rfl⟩ := Option.map_eq_some_iff.mp h
        exact .asked worker answer item draining hworker hfinding (next_moved hb) rfl
    next => cases h
  | call | enqueue | giveUp | take | seeDone | quit | closeReturns => exact hother _ (by simp) h
  | close => exact hother .close (by simp) h

theorem Took.moved {capacity : Nat} {s s' : Exporter} {i : Timed} (h : Took capacity s i s') :
    ∃ a, Moved capacity s.buffered a s'.buffered := by
  cases h with
  | unasked a moved => exact ⟨a, moved⟩
  | asked worker answer item draining exporting event moved => exact ⟨_, moved⟩

theorem export_eq_dropped {allow : Bool} {answer : Answer} {ev : Audit.Event} :
    «export» allow answer ev = .dropped ↔ isFinding ev = false ∧ allow = false := by
  unfold «export»
  cases isFinding ev <;> cases allow <;> cases answer <;> simp

/-- A worker never drops a finding. -/
theorem finding_dropped {capacity : Nat} {s : Exporter} {i : Timed} {item : Item}
    (hfinding : isFinding item.ev = true)
    (h : Records (event (step capacity) s i) item .dropped) :
    s.buffered.done = true ∨ capacity ≤ s.buffered.queue.length := by
  have hfates : (step capacity s i).2.buffered.fates = s.buffered.fates ++ [(item, .dropped)] := h
  cases hnext : next capacity s i with
  | none =>
    rw [step, guarded_none hnext] at hfates
    simp at hfates
  | some s' =>
    rw [step, guarded_some hnext] at hfates
    obtain ⟨a, moved⟩ := (next_took hnext).moved
    rcases Moved.fates moved with ⟨hsame, -⟩ | ⟨item', -, hfull, -⟩ |
      ⟨worker, allow, answer, item', draining, -, -, hworker⟩
    · rw [hsame] at hfates
      simp at hfates
    · exact hfull
    · obtain ⟨rfl, hdropped⟩ : item' = item ∧ «export» allow answer item'.ev = .dropped := by
        simpa using hworker.symm.trans hfates
      cases hfinding.symm.trans (export_eq_dropped.mp hdropped).1

/-! ## The cap -/

/-- The level of the limiter. -/
def levelAt (s : Exporter) (t : Rat) : Rat := (s.limiter.map (·.level t)).getD 0

/-- The limiter of the exporter, at a time. -/
def Limits (perSec t : Rat) (s : Exporter) : Prop :=
  ∃ l, s.limiter = some l ∧ l.Valid perSec (max perSec 1) t

theorem handed_of_fates {e : Lib.Event Exporter Timed Bool} {p : List (Item × Fate)}
    (h : e.after.buffered.fates = e.before.buffered.fates ++ p) :
    handed e = p.any fun q => !isFinding q.1.ev && decide (q.2 ≠ .dropped) := by
  rw [handed, h, List.drop_left]

/-- An event is handed on only when the limiter allows it. -/
theorem Took.level {capacity : Nat} {perSec : Rat} (hrate : 0 < perSec) {s s' : Exporter} {i : Timed}
    (h : Took capacity s i s') (hs : Limits perSec i.now s) (output : Bool) :
    Limits perSec i.now s' ∧
      levelAt s' i.now + (if handed ⟨s, i, output, s'⟩ then 1 else 0) ≤ levelAt s i.now := by
  obtain ⟨l, hl, hvalid⟩ := hs
  cases h with
  | unasked a moved limiter finding =>
    have hhanded : handed ⟨s, i, output, s'⟩ = false := by
      rcases Moved.fates moved with ⟨hfates, -⟩ | ⟨item, hfates, -⟩ |
        ⟨worker, allow, answer, item, draining, ha, hworker, hfates⟩
      · rw [handed_of_fates (p := []) (by simpa using hfates)]
        rfl
      · rw [handed_of_fates hfates]
        simp
      · rw [handed_of_fates hfates]
        simp [finding worker allow answer item draining ha hworker]
    rw [hhanded, levelAt, limiter, ← levelAt]
    exact ⟨⟨l, limiter.trans hl, hvalid⟩, by simp⟩
  | asked worker answer item draining exporting event moved limiter =>
    obtain ⟨l', hl', hvalid', hlevel⟩ := hvalid.allow hrate
    rw [hl] at limiter moved
    have hhanded : handed ⟨s, i, output, s'⟩ = (RateLimiter.allow (some l) i.now).1 := by
      rcases Moved.fates moved with ⟨-, hne⟩ | ⟨_, -, -, hne⟩ |
        ⟨worker', allow', answer', item', draining', ha, hworker', hfates⟩
      · exact absurd rfl (hne _ _ _)
      · exact absurd rfl (hne _ _ _)
      · cases ha
        cases exporting.symm.trans hworker'
        rw [handed_of_fates hfates]
        have hdropped := @export_eq_dropped (RateLimiter.allow (some l) i.now).1 answer item.ev
        cases hallow : (RateLimiter.allow (some l) i.now).1 with
        | true =>
          rw [hallow] at hdropped
          simp [event, hdropped]
        | false =>
          rw [hallow] at hdropped
          simp [event, hdropped]
    have hafter : s'.limiter = some l' := limiter.trans hl'
    refine ⟨⟨l', hafter, hvalid'⟩, ?_⟩
    rw [hhanded, levelAt, levelAt, hafter, hl]
    exact le_of_eq hlevel

def meter (capacity : Nat) {perSec : Rat} (hrate : 0 < perSec) :
    Meter (step capacity) Timed.now handed (max perSec 1) perSec where
  Inv := Limits perSec
  level := levelAt
  rate_nonneg := le_of_lt hrate
  later := by
    rintro t t' s ht ⟨l, hl, hvalid⟩
    exact ⟨l, hl, hvalid.later ht⟩
  nonneg := by
    rintro t s ⟨l, hl, hvalid⟩
    rw [levelAt, hl]
    exact hvalid.level_nonneg (le_of_lt hrate)
  le_burst := by
    rintro t s ⟨l, hl, hvalid⟩
    rw [levelAt, hl]
    exact hvalid.level_le
  fills := by
    rintro t t' s ht ⟨l, hl, hvalid⟩
    rw [levelAt, levelAt, hl]
    exact hvalid.level_fills (le_of_lt hrate) ht
  step_inv := by
    intro s i hs
    exact guarded_keeps hs fun s' hnext => ((next_took hnext).level hrate hs true).1
  takes := by
    intro s i hs
    cases hnext : next capacity s i with
    | some s' =>
      have hevent : event (step capacity) s i = ⟨s, i, true, s'⟩ := by
        rw [event, step, guarded_some hnext]
      rw [hevent, step, guarded_some hnext]
      exact ((next_took hnext).level hrate hs true).2
    | none =>
      have hevent : event (step capacity) s i = ⟨s, i, false, s⟩ := by
        rw [event, step, guarded_none hnext]
      rw [hevent, step, guarded_none hnext, handed_of_fates (p := []) (by simp)]
      simp

/-- **The audit stream is capped, and the cap spares findings.** However the calls of `Export` and
the workers interleave: in every window of time the inner exporter is handed at most the burst and
what the rate gives of events that are no findings, and a finding is dropped only by its own call,
where the exporter is closing or the queue is full. -/
theorem export_rate_is_capped (capacity workers : Nat) {perSec start : Rat} (hrate : 0 < perSec)
    {is : List Timed} (hclock : is.Pairwise fun i j => i.now ≤ j.now)
    (hfrom : ∀ i ∈ is, start ≤ i.now) :
    let s := newBufferedExporter workers (some (newRateLimiter perSec start))
    (∀ t d : Rat, 0 ≤ d → ((trace (step capacity) s is).countP fun e =>
        handed e && (decide (t ≤ e.input.now) && decide (e.input.now ≤ t + d)) : Rat) ≤
      max perSec 1 + perSec * d) ∧
    ∀ e ∈ trace (step capacity) s is, ∀ item, isFinding item.ev = true → Records e item .dropped →
      e.before.buffered.done = true ∨ capacity ≤ e.before.buffered.queue.length := by
  intro s
  constructor
  · intro t d hd
    have hstart : Limits perSec start s :=
      ⟨_, rfl, RateLimiter.newRateLimiter_valid perSec start⟩
    exact (meter capacity hrate).count_window_le hclock hstart hfrom t hd
  · refine trace_invariant (C := fun _ => True) (I := fun _ => True) ?_ trivial fun _ _ => trivial
    intro s i _ _
    exact ⟨fun item hfinding hrecords => finding_dropped hfinding hrecords, trivial⟩

/-- The decision is that the request is blocked. -/
def blockEvent : Audit.Event :=
  { allowEvent with decision := blocked [] { action := .block } }

/-- An event goes through the exporter at a time. -/
def through (ev : Audit.Event) (now : Rat) : List Timed :=
  [⟨.call ev, now⟩, ⟨.enqueue 0, now⟩, ⟨.take 0, now⟩, ⟨.finish 0 true .ok, now⟩]

/-- At one event per second the second of two at once is dropped, and a finding is not. -/
theorem second_event_is_dropped :
    let s := newBufferedExporter 1 (some (newRateLimiter 1 0))
    let is := through allowEvent 0 ++ through allowEvent 0 ++ through blockEvent 0
    (runFrom (step 1) s is).buffered.fates.map Prod.snd = [.accepted, .dropped, .accepted] ∧
      ((trace (step 1) s is).countP fun e =>
        handed e && (decide (0 ≤ e.input.now) && decide (e.input.now ≤ 0 + 0)) : Rat) ≤
        max 1 1 + 1 * 0 := by
  intro s is
  have htimes : ∀ i ∈ is, i.now = 0 := by
    decide +kernel
  have hclock : is.Pairwise fun i j => i.now ≤ j.now := by
    refine List.pairwise_of_forall_mem_list fun i hi j hj => ?_
    rw [htimes i hi, htimes j hj]
  have hcap := (export_rate_is_capped 1 1 zero_lt_one hclock
    fun i hi => le_of_eq (htimes i hi).symm).1 0 0 (le_refl _)
  exact ⟨by decide +kernel, hcap⟩

end RateCap

end ElchiShield.Audit
