import Mathlib.Data.List.Basic
import Mathlib.Order.Nat

/-! # Spans swept from the left

Labelled spans lie over the positions of a text, sorted by where they start, and may overlap. A
sweep from the left keeps what lies between them and paints each span from where those before
it end, so that every position goes to the first span over it. -/
namespace ElchiShield.Lib

structure Span (κ : Type) where
  start : Nat
  stop : Nat
  label : κ

namespace Span

variable {κ β γ : Type} {s t : Span κ} {ss : List (Span κ)} {last stop p : Nat}
  {keep : Nat → Nat → List β} {paint : Span κ → List β}

def Over (s : Span κ) (p : Nat) : Prop := s.start ≤ p ∧ p < s.stop

instance (s : Span κ) (p : Nat) : Decidable (s.Over p) := inferInstanceAs (Decidable (_ ∧ _))

def startAt (s : Span κ) (start : Nat) : Span κ := ⟨start, s.stop, s.label⟩

/-! ## The stretches that remain of the spans -/

/-- What each span adds to those before it. -/
def clip : Nat → List (Span κ) → List (Span κ)
  | _, [] => []
  | last, s :: ss =>
    if last < s.stop then s.startAt (max last s.start) :: clip s.stop ss else clip last ss

/-- One after the other from `last` on, and none of them empty. -/
def Apart : Nat → List (Span κ) → Prop
  | _, [] => True
  | last, s :: ss => last ≤ s.start ∧ s.start < s.stop ∧ Apart s.stop ss

theorem clip_apart (h : ∀ s ∈ ss, s.start < s.stop) : Apart last (clip last ss) := by
  induction ss generalizing last with
  | nil => trivial
  | cons s ss ih =>
    have hs := h s List.mem_cons_self
    have hss : ∀ t ∈ ss, t.start < t.stop := fun t ht => h t (List.mem_cons_of_mem _ ht)
    unfold clip
    split
    next hlast => exact ⟨Nat.le_max_left _ _, Nat.max_lt.mpr ⟨hlast, hs⟩, ih hss⟩
    next => exact ih hss

theorem le_start_of_mem_clip (ht : t ∈ clip last ss) : last ≤ t.start := by
  induction ss generalizing last with
  | nil => cases ht
  | cons s ss ih =>
    unfold clip at ht
    split at ht
    next hlast =>
      rcases List.mem_cons.mp ht with rfl | ht
      · exact Nat.le_max_left _ _
      · exact hlast.le.trans (ih ht)
    next => exact ih ht

/-- A stretch is the end of a span of which no other came first over its positions. -/
theorem first_of_mem_clip (ht : t ∈ clip last ss) (hover : t.Over p) :
    ∃ s, ss.find? (·.Over p) = some s ∧ s.start ≤ t.start ∧ t = s.startAt t.start := by
  induction ss generalizing last with
  | nil => cases ht
  | cons s ss ih =>
    by_cases hs : s.Over p
    · rw [List.find?_cons_of_pos (by simpa using hs)]
      refine ⟨s, rfl, ?_⟩
      unfold clip at ht
      split at ht
      next hlast =>
        rcases List.mem_cons.mp ht with rfl | ht
        · exact ⟨Nat.le_max_right _ _, rfl⟩
        · -- the stretches behind that of `s` start beyond `p`
          have hbeyond := le_start_of_mem_clip ht
          exact absurd (hbeyond.trans hover.1) (Nat.not_le.mpr hs.2)
      next hlast =>
        have hbeyond := le_start_of_mem_clip ht
        exact absurd (hbeyond.trans hover.1) (by have := hs.2; omega)
    · rw [List.find?_cons_of_neg (by simpa using hs)]
      unfold clip at ht
      split at ht
      next =>
        rcases List.mem_cons.mp ht with rfl | ht
        · exact absurd ⟨(Nat.le_max_right _ _).trans hover.1, hover.2⟩ hs
        · exact ih ht
      next => exact ih ht

/-- Every position a span is over is in a stretch. -/
theorem exists_mem_clip (hsorted : ss.Pairwise (·.start ≤ ·.start)) (hp : last ≤ p) (hs : s ∈ ss)
    (hover : s.Over p) : ∃ t ∈ clip last ss, t.Over p := by
  induction ss generalizing last with
  | nil => cases hs
  | cons u ss ih =>
    obtain ⟨hle, hrest⟩ := List.pairwise_cons.mp hsorted
    unfold clip
    split
    next =>
      by_cases hu : u.Over p
      · exact ⟨_, List.mem_cons_self, Nat.max_le.mpr ⟨hp, hu.1⟩, hu.2⟩
      · rcases List.mem_cons.mp hs with rfl | hs
        · exact absurd hover hu
        · have hstop : u.stop ≤ p := Nat.not_lt.mp fun h => hu ⟨(hle s hs).trans hover.1, h⟩
          obtain ⟨t, ht, htp⟩ := ih hrest hstop hs
          exact ⟨t, List.mem_cons_of_mem _ ht, htp⟩
    next hlast =>
      rcases List.mem_cons.mp hs with rfl | hs
      · exact absurd hover.2 (by omega)
      · exact ih hrest hp hs

/-! ## The sweep -/

/-- What lies between the stretches, and the paint over them. -/
def weave (keep : Nat → Nat → List β) (paint : Span κ → List β) (stop : Nat) :
    Nat → List (Span κ) → List β
  | last, [] => keep last stop
  | last, s :: ss => keep last s.start ++ paint s ++ weave keep paint stop s.stop ss

/-- The loop of a sweep: the output so far and the end of what it covers. -/
def sweep (keep : Nat → Nat → List β) (paint : Span κ → List β) :
    List (Span κ) → List β × Nat → List β × Nat
  | [], acc => acc
  | s :: ss, (out, last) =>
    if s.start < last then
      if last < s.stop then sweep keep paint ss (out ++ paint (s.startAt last), s.stop)
      else sweep keep paint ss (out, last)
    else sweep keep paint ss (out ++ keep last s.start ++ paint s, s.stop)

/-- A sweep weaves the stretches into what lies between them. -/
theorem sweep_eq_weave (hkeep : ∀ a, keep a a = []) (hne : ∀ s ∈ ss, s.start < s.stop)
    (out : List β) :
    (sweep keep paint ss (out, last)).1 ++ keep (sweep keep paint ss (out, last)).2 stop =
      out ++ weave keep paint stop last (clip last ss) := by
  induction ss generalizing out last with
  | nil => rfl
  | cons s ss ih =>
    have hs := hne s List.mem_cons_self
    have ih := fun out last => @ih last (fun t ht => hne t (List.mem_cons_of_mem _ ht)) out
    unfold sweep clip
    split
    next hstart =>
      split
      next =>
        rw [ih, Nat.max_eq_left hstart.le]
        simp [weave, startAt, hkeep]
      next => exact ih out last
    next hstart =>
      rw [if_pos (by omega), ih, Nat.max_eq_right (Nat.not_lt.mp hstart)]
      simp [weave, startAt]

theorem sweep_stop_le {bound : Nat} (hlast : last ≤ bound) (h : ∀ s ∈ ss, s.stop ≤ bound)
    {out : List β} : (sweep keep paint ss (out, last)).2 ≤ bound := by
  induction ss generalizing out last with
  | nil => exact hlast
  | cons s ss ih =>
    have hs := h s List.mem_cons_self
    have hss : ∀ t ∈ ss, t.stop ≤ bound := fun t ht => h t (List.mem_cons_of_mem _ ht)
    unfold sweep
    split
    · split
      · exact ih hs hss
      · exact ih hlast hss
    · exact ih hs hss

theorem map_weave (f : β → γ) :
    (weave keep paint stop last ss).map f =
      weave (fun a b => (keep a b).map f) (fun s => (paint s).map f) stop last ss := by
  induction ss generalizing last with
  | nil => rfl
  | cons s ss ih => simp [weave, ih]

theorem Apart.le_start (h : Apart last ss) (hs : s ∈ ss) : last ≤ s.start := by
  induction ss generalizing last with
  | nil => cases hs
  | cons t ss ih =>
    obtain ⟨hlast, ht, hrest⟩ := h
    rcases List.mem_cons.mp hs with rfl | hs
    · exact hlast
    · exact (hlast.trans ht.le).trans (ih hrest hs)

theorem Apart.nonempty (h : Apart last ss) (hs : s ∈ ss) : s.start < s.stop := by
  induction ss generalizing last with
  | nil => cases hs
  | cons t ss ih =>
    obtain ⟨-, ht, hrest⟩ := h
    rcases List.mem_cons.mp hs with rfl | hs
    · exact ht
    · exact ih hrest hs

/-- Something of the kept text at position `p` is in the result where a stretch paints it, and
where no stretch is over `p`. -/
theorem exists_mem_weave {P : β → Prop}
    (hkeep : ∀ a b, b ≤ stop → ((∃ x ∈ keep a b, P x) ↔ a ≤ p ∧ p < b)) (h : Apart last ss)
    (hstop : ∀ s ∈ ss, s.stop ≤ stop) :
    (∃ x ∈ weave keep paint stop last ss, P x) ↔
      (∃ s ∈ ss, ∃ x ∈ paint s, P x) ∨ (last ≤ p ∧ p < stop ∧ ∀ s ∈ ss, ¬ s.Over p) := by
  induction ss generalizing last with
  | nil => simp [weave, hkeep]
  | cons s ss ih =>
    obtain ⟨hlast, hs, hrest⟩ := h
    have hs' := hstop s List.mem_cons_self
    have hbehind : p < s.stop → ∀ t ∈ ss, ¬ t.Over p := fun hp t ht hover =>
      absurd ((hrest.le_start ht).trans hover.1) (Nat.not_le.mpr hp)
    have hover : ¬ s.Over p ↔ p < s.start ∨ s.stop ≤ p := by
      unfold Over
      omega
    simp only [weave, List.mem_append, or_and_right, exists_or]
    rw [hkeep _ _ (by omega), ih hrest fun t ht => hstop t (List.mem_cons_of_mem _ ht),
      List.exists_mem_cons_iff, List.forall_mem_cons, hover]
    constructor
    · rintro ((⟨h1, h2⟩ | hpaint) | hpaint | ⟨h1, h2, h3⟩)
      · exact .inr ⟨h1, by omega, .inl h2, hbehind (by omega)⟩
      · exact .inl (.inl hpaint)
      · exact .inl (.inr hpaint)
      · exact .inr ⟨by omega, h2, .inr h1, h3⟩
    · rintro ((hpaint | hpaint) | ⟨h1, h2, h3 | h3, h4⟩)
      · exact .inl (.inr hpaint)
      · exact .inr (.inl hpaint)
      · exact .inl (.inl ⟨h1, h3⟩)
      · exact .inr (.inr ⟨h3, h2, h4⟩)

end Span

end ElchiShield.Lib
