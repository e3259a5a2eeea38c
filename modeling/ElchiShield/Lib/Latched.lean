import Mathlib.Data.List.Basic

/-! # Looking at what has come in

Inputs bring bytes, and some of them ask for a look at all that has come in so far. What was
looked at is not looked at again before more comes in. -/
namespace ElchiShield.Lib

section
variable {α β : Type} (bytes : α → List β) (asks : α → Bool)

/-- How often the inputs have what is there looked at; `seen` says that it was before. -/
def looks : Bool → List α → Nat
  | _, [] => 0
  | seen, a :: l =>
    let still := seen && (bytes a).isEmpty
    if asks a && !still then looks true l + 1 else looks still l

/-- What the first look finds of the inputs. -/
def firstLook : List α → List β
  | [] => []
  | a :: l => if asks a then bytes a else bytes a ++ firstLook l

/-- Nothing comes in behind an input that asks. -/
def Closing (l : List α) : Prop := l.Pairwise fun a b => asks a = true → bytes b = []

instance [DecidableEq β] (l : List α) : Decidable (Closing bytes asks l) :=
  inferInstanceAs (Decidable (List.Pairwise _ l))

end

section
variable {α β : Type} {bytes : α → List β} {asks : α → Bool} {l r : List α} {a : α}

theorem looks_quiet (h : ∀ a ∈ l, asks a = false) (seen : Bool) : looks bytes asks seen l = 0 := by
  induction l generalizing seen with
  | nil => rfl
  | cons a l ih =>
    obtain ⟨ha, has⟩ := List.forall_mem_cons.mp h
    simp [looks, ha, ih has]

theorem looks_seen (h : ∀ a ∈ l, bytes a = []) : looks bytes asks true l = 0 := by
  induction l with
  | nil => rfl
  | cons a l ih =>
    obtain ⟨ha, has⟩ := List.forall_mem_cons.mp h
    simp [looks, ha, ih has]

theorem looks_pos (h : ∃ a ∈ l, asks a = true) : 0 < looks bytes asks false l := by
  induction l with
  | nil => simp at h
  | cons a l ih =>
    by_cases ha : asks a = true
    · simp [looks, ha]
    · have hrest : ∃ b ∈ l, asks b = true := by simpa [ha] using h
      simpa [looks, ha] using ih hrest

/-- Bytes are looked at if one asks with them or behind them, whatever was seen before. -/
theorem looks_fresh (hbytes : bytes a ≠ []) (h : ∃ b ∈ a :: r, asks b = true) (seen : Bool) :
    0 < looks bytes asks seen (l ++ a :: r) := by
  induction l generalizing seen with
  | nil =>
    have hempty : (bytes a).isEmpty = false := by simpa using hbytes
    by_cases ha : asks a = true
    · simp [looks, ha, hempty]
    · have hrest : ∃ b ∈ r, asks b = true := by simpa [ha] using h
      simpa [looks, ha, hempty] using looks_pos hrest
  | cons c l ih =>
    rw [List.cons_append, looks]
    split
    · exact Nat.succ_pos _
    · exact ih _

theorem exists_first (h : ∃ a ∈ l, asks a = true) :
    ∃ before a after, l = before ++ a :: after ∧ asks a = true ∧ ∀ b ∈ before, asks b = false := by
  have hfound : (l.find? asks).isSome = true := List.find?_isSome.mpr h
  obtain ⟨a, ha⟩ := Option.isSome_iff_exists.mp hfound
  obtain ⟨hasks, before, after, heq, hbefore⟩ := List.find?_eq_some_iff_append.mp ha
  exact ⟨before, a, after, heq, hasks, fun b hb => by simpa using hbefore b hb⟩

theorem looks_first (ha : asks a = true) (h : ∀ b ∈ l, asks b = false) :
    looks bytes asks false (l ++ a :: r) = looks bytes asks true r + 1 ∧
      firstLook bytes asks (l ++ a :: r) = (l ++ [a]).flatMap bytes := by
  induction l with
  | nil => simp [looks, firstLook, ha]
  | cons b l ih =>
    obtain ⟨hb, has⟩ := List.forall_mem_cons.mp h
    simpa [looks, firstLook, hb] using ih has

/-- The look of the first that asks is the last one exactly where nothing comes in behind it. -/
theorem closing_first_iff (ha : asks a = true) (h : ∀ b ∈ l, asks b = false) :
    Closing bytes asks (l ++ a :: r) ↔ ∀ b ∈ r, bytes b = [] := by
  rw [Closing, List.pairwise_append, List.pairwise_cons]
  constructor
  · rintro ⟨-, ⟨hbehind, -⟩, -⟩ b hb
    exact hbehind b hb ha
  · intro hempty
    have hquiet : ∀ b ∈ l, ∀ c, asks b = true → bytes c = [] := by
      intro b hb c hasks
      cases (h b hb).symm.trans hasks
    refine ⟨?_, ⟨fun b hb _ => hempty b hb, ?_⟩, fun b hb c _ => hquiet b hb c⟩
    · exact List.Pairwise.imp_of_mem (fun hb _ _ => hquiet _ hb _) (List.pairwise_of_forall fun _ _ => trivial)
    · exact List.Pairwise.imp_of_mem (fun _ hc _ _ => hempty _ hc) (List.pairwise_of_forall fun _ _ => trivial)

/-- Inputs of which the last one asks are looked at once exactly where nothing comes in behind one
that asks. -/
theorem looks_eq_one_iff (hlast : l.getLast? = some a) (ha : asks a = true) :
    looks bytes asks false l = 1 ↔ Closing bytes asks l := by
  obtain ⟨before, b, after, rfl, hb, hbefore⟩ := exists_first ⟨a, List.mem_of_getLast? hlast, ha⟩
  rw [(looks_first hb hbefore).1, closing_first_iff hb hbefore]
  constructor
  · intro hone c hc
    by_contra hbytes
    obtain ⟨after₁, after₂, rfl⟩ := List.append_of_mem hc
    have hbehind : a ∈ c :: after₂ := by
      refine List.mem_of_getLast? (hlast ▸ ?_)
      simp [List.getLast?_append, List.getLast?_cons]
    have hpos := looks_fresh (l := after₁) hbytes ⟨a, hbehind, ha⟩ true
    omega
  · intro hempty
    rw [looks_seen hempty]

/-- Where nothing comes in behind one that asks, the one look finds all there is, also of what is
still to come. -/
theorem Closing.looks (h : Closing bytes asks (l ++ r)) (hasks : ∃ a ∈ l, asks a = true) :
    Lib.looks bytes asks false l = 1 ∧ firstLook bytes asks l = (l ++ r).flatMap bytes := by
  obtain ⟨before, a, after, rfl, ha, hbefore⟩ := exists_first hasks
  rw [List.append_assoc, List.cons_append, closing_first_iff ha hbefore] at h
  have hafter : ∀ b ∈ after, bytes b = [] := fun b hb => h b (List.mem_append_left _ hb)
  obtain ⟨hlooks, hfirst⟩ : Lib.looks bytes asks false (before ++ a :: after) = _ ∧ _ :=
    looks_first ha hbefore
  rw [hlooks, hfirst, looks_seen hafter]
  have hrest : (after ++ r).flatMap bytes = [] := List.flatMap_eq_nil_iff.mpr h
  refine ⟨rfl, ?_⟩
  simp [List.flatMap_append, List.flatMap_cons, List.flatMap_append ▸ hrest]

end

end ElchiShield.Lib
