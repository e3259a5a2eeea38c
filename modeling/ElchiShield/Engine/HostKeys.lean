import ElchiShield.Engine.RateLimit
import ElchiShield.Matcher.Hosts
import Mathlib.Data.List.TakeWhile

/-! # The host as a key and as a route

The rate limiter keys a request on `canonHost` of its authority, the router resolves it by
`normalizeHost`. The two read an authority on their own. -/
namespace ElchiShield.RateLimit
open ElchiShield.Go ElchiShield.Engine ElchiShield.Matcher

/-! ## Blanks around a text -/

/-- What `trimSpace` does to an ASCII text. -/
structure Trimmed (s lead t trail : Bytes) : Prop where
  eq : s = lead ++ (t ++ trail)
  lead : ∀ b ∈ lead, solid b = false
  trail : ∀ b ∈ trail, solid b = false
  head : ∀ b, t.head? = some b → solid b = true

theorem trimSpace_trimmed {s : Bytes} (h : isASCII s = true) :
    ∃ lead trail, Trimmed s lead (trimSpace s) trail := by
  have hreverse : ∀ w ∈ spaces.map List.reverse, ∀ b ∈ w, solid b = false := by
    intro w hw b hb
    obtain ⟨v, hv, rfl⟩ := List.mem_map.mp hw
    exact space_not_solid v hv b (List.mem_reverse.mp hb)
  obtain ⟨lead, hs, hlead⟩ := dropLeading_suffix space_not_solid s.length s
  obtain ⟨trail, ht, htrail⟩ := dropLeading_suffix hreverse
    (dropLeading spaces s.length s).length (dropLeading spaces s.length s).reverse
  have ht' : dropLeading spaces s.length s = trimSpace s ++ trail.reverse := by
    have := congrArg List.reverse ht
    rwa [List.reverse_reverse, List.reverse_append] at this
  have heq : s = lead ++ (trimSpace s ++ trail.reverse) := by rw [← ht', ← hs]
  have hascii : ∀ b ∈ trimSpace s, b < 128 := by
    intro b hb
    refine isASCII_iff.mp h b ?_
    rw [heq]
    simp [hb]
  refine ⟨lead, trail.reverse, heq, hlead, by simpa using htrail, ?_⟩
  intro b hb
  have hspace : [b] ∉ spaces := by
    refine dropLeading_head spaces_ne_nil (le_refl s.length) ?_
    rw [ht', List.head?_append, hb]
    rfl
  by_contra hs
  exact hspace (blank_of_not_solid b (hascii b (List.mem_of_mem_head? hb)) (by simpa using hs))

/-! ## Brackets -/

def bracket (b : UInt8) : Bool := b = ch '[' ∨ b = ch ']'

theorem bracket_lowerByte : ∀ b : UInt8, bracket (lowerByte b) = bracket b :=
  forall_byte (by decide +kernel)

theorem solid_of_bracket {b : UInt8} (h : bracket b = true) : solid b = true := by
  rcases of_decide_eq_true h with rfl | rfl <;> decide

theorem trimBrackets_eq (s : Bytes) :
    trimBrackets s = ((s.dropWhile bracket).reverse.dropWhile bracket).reverse := rfl

theorem dropWhile_lowerASCII (s : Bytes) :
    (lowerASCII s).dropWhile bracket = lowerASCII (s.dropWhile bracket) := by
  unfold lowerASCII
  rw [List.dropWhile_map]
  congr 2
  funext b
  exact bracket_lowerByte b

theorem trimBrackets_lowerASCII (s : Bytes) :
    trimBrackets (lowerASCII s) = lowerASCII (trimBrackets s) := by
  have hreverse : ∀ s, (lowerASCII s).reverse = lowerASCII s.reverse :=
    fun s => List.map_reverse.symm
  simp only [trimBrackets_eq, dropWhile_lowerASCII, hreverse]

theorem trimBrackets_subset (s : Bytes) : trimBrackets s ⊆ s := by
  intro b hb
  rw [trimBrackets_eq, List.mem_reverse] at hb
  have hb := (List.dropWhile_sublist _).subset hb
  exact (List.dropWhile_sublist _).subset (List.mem_reverse.mp hb)

/-- A class of bytes that has no brackets and does not look at the case. -/
structure Ink (p : UInt8 → Bool) : Prop where
  not_bracket : ∀ b, p b = true → bracket b = false
  lower : ∀ b, p (lowerByte b) = p b

theorem Ink.countP_lowerASCII {p : UInt8 → Bool} (hp : Ink p) (s : Bytes) :
    (lowerASCII s).countP p = s.countP p := by
  unfold lowerASCII
  rw [List.countP_map]
  congr 1
  funext b
  exact hp.lower b

theorem Ink.countP_dropWhile {p : UInt8 → Bool} (hp : Ink p) (s : Bytes) :
    (s.dropWhile bracket).countP p = s.countP p := by
  induction s with
  | nil => rfl
  | cons b s ih =>
    cases hb : bracket b with
    | false => rw [List.dropWhile_cons_of_neg (by simp [hb])]
    | true =>
      have hpb : ¬ p b = true := fun hpb => by simp [hp.not_bracket b hpb] at hb
      rw [List.dropWhile_cons_of_pos hb, List.countP_cons_of_neg hpb, ih]

theorem Ink.countP_trimBrackets {p : UInt8 → Bool} (hp : Ink p) (s : Bytes) :
    (trimBrackets s).countP p = s.countP p := by
  rw [trimBrackets_eq, List.countP_reverse, hp.countP_dropWhile, List.countP_reverse,
    hp.countP_dropWhile]

/-- Texts that are one key have as much of the class. -/
theorem Ink.countP_eq {p : UInt8 → Bool} (hp : Ink p) {s t : Bytes}
    (h : lowerASCII (trimBrackets s) = lowerASCII (trimBrackets t)) : s.countP p = t.countP p := by
  have hcount := congrArg (List.countP p) h
  rwa [hp.countP_lowerASCII, hp.countP_lowerASCII, hp.countP_trimBrackets,
    hp.countP_trimBrackets] at hcount

theorem ink_unbracketed : Ink fun b => !bracket b where
  not_bracket b := by simp
  lower b := by rw [bracket_lowerByte]

/-- The bytes at which something is stripped. -/
def mark (b : UInt8) : Bool := b = ch ':' ∨ b = dot

theorem ink_mark : Ink mark where
  not_bracket := forall_byte (by decide +kernel)
  lower := forall_byte (by decide +kernel)

theorem countP_mark_blank {s : Bytes} (h : ∀ b ∈ s, solid b = false) : s.countP mark = 0 := by
  rw [List.countP_eq_zero]
  intro b hb hmark
  have hblank := h b hb
  rcases of_decide_eq_true hmark with rfl | rfl
  · exact absurd hblank (by decide)
  · exact absurd hblank (by decide)

theorem ink_at : Ink (· == ch '@') where
  not_bracket := forall_byte (by decide +kernel)
  lower := forall_byte (by decide +kernel)

theorem trimBrackets_eq_self {s : Bytes} (h : ∀ b ∈ s, bracket b = false) : trimBrackets s = s := by
  have hdrop : ∀ s : Bytes, (∀ b ∈ s, bracket b = false) → s.dropWhile bracket = s := by
    intro s hs
    cases s with
    | nil => rfl
    | cons b s => rw [List.dropWhile_cons_of_neg (by simp [hs b])]
  rw [trimBrackets_eq, hdrop s h, hdrop s.reverse (by simpa using h), List.reverse_reverse]

theorem trimBrackets_bracketed {s : Bytes} (h : ∀ b ∈ s, bracket b = false) :
    trimBrackets (ch '[' :: (s ++ [ch ']'])) = s := by
  have hopen : (ch '[' :: (s ++ [ch ']'])).dropWhile bracket = (s ++ [ch ']']).dropWhile bracket :=
    List.dropWhile_cons_of_pos (by decide)
  cases s with
  | nil => rfl
  | cons b s =>
    have hb : bracket b = false := h b List.mem_cons_self
    have hfront : (b :: s ++ [ch ']']).dropWhile bracket = b :: s ++ [ch ']'] :=
      List.dropWhile_cons_of_neg (by simp [hb])
    have hback : ((b :: s ++ [ch ']']).reverse).dropWhile bracket =
        ((b :: s).reverse).dropWhile bracket := by
      rw [List.reverse_append]
      exact List.dropWhile_cons_of_pos (by decide)
    rw [trimBrackets_eq, hopen, hfront, hback]
    have hself := trimBrackets_eq_self h
    rw [trimBrackets_eq, List.dropWhile_cons_of_neg (by simp [hb])] at hself
    exact hself

/-! ## Hosts with a port -/

/-- The two forms of a host before a colon. -/
inductive Written (name : Bytes) : Bytes → Prop where
  | bare : Written name name
  | bracketed : Written name (ch '[' :: (name ++ [ch ']']))

theorem Written.countP {name host : Bytes} (h : Written name host) {p : UInt8 → Bool}
    (hp : Ink p) : host.countP p = name.countP p := by
  cases h with
  | bare => rfl
  | bracketed =>
    have hopen : ¬ p (ch '[') = true := fun hb => by simpa [bracket] using hp.not_bracket _ hb
    have hclose : ¬ p (ch ']') = true := fun hb => by simpa [bracket] using hp.not_bracket _ hb
    simp [hopen, hclose]

theorem Written.trimBrackets {name host : Bytes} (h : Written name host)
    (hname : ∀ b ∈ name, bracket b = false) : RateLimit.trimBrackets host = name := by
  cases h with
  | bare => exact trimBrackets_eq_self hname
  | bracketed => exact trimBrackets_bracketed hname

theorem splitHostPort_eq_some {s name : Bytes} (h : splitHostPort s = some name) :
    ∃ host port, s = host ++ ch ':' :: port ∧ Written name host ∧
      (∀ b ∈ name, bracket b = false) ∧ (∀ b ∈ port, bracket b = false) ∧ ch ':' ∉ port := by
  have hbracket : ∀ {t : Bytes}, ch '[' ∉ t → ch ']' ∉ t → ∀ b ∈ t, bracket b = false := by
    intro t hopen hclose b hb
    rw [bracket, decide_eq_false_iff_not, not_or]
    exact ⟨fun he => hopen (he ▸ hb), fun he => hclose (he ▸ hb)⟩
  unfold splitHostPort at h
  split at h
  next hhead =>
    obtain ⟨s, rfl⟩ := List.head?_eq_some_iff.mp hhead
    rw [List.tail_cons] at h
    split at h
    next d c port hdrop =>
      dsimp only at h
      split at h
      next hc =>
        obtain ⟨rfl, hcolon, hopen, hopen', hclose⟩ := hc
        cases h
        have hd : d = ch ']' := by
          have := List.head?_dropWhile_not (· ≠ ch ']') s
          rw [hdrop] at this
          simpa using this
        rw [hd] at hdrop
        have hs : s = s.takeWhile (· ≠ ch ']') ++ ch ']' :: ch ':' :: port := by
          rw [← hdrop, List.takeWhile_append_dropWhile]
        refine ⟨ch '[' :: (s.takeWhile (· ≠ ch ']') ++ [ch ']']), port, ?_, .bracketed, ?_,
          hbracket hopen' hclose, hcolon⟩
        · rw [List.cons_append, List.append_assoc]
          exact congrArg _ hs
        · refine hbracket hopen fun hb => ?_
          simpa using List.mem_takeWhile_imp hb
      next => cases h
    next => cases h
  next =>
    split at h
    next host port hcut =>
      split at h
      next hc =>
        obtain ⟨hcolon, hopen, hclose⟩ := hc
        obtain rfl := Option.some.inj h
        have hs := cut_eq_some hcut
        have hall := hbracket hopen hclose
        rw [hs] at hall
        exact ⟨host, port, hs, .bare, fun b hb => hall b (by simp [hb]),
          fun b hb => hall b (by simp [hb]), hcolon⟩
      next => cases h
    next => cases h

theorem trimPort_port (host : Bytes) {port : Bytes} (hcolon : ch ':' ∉ port)
    (hport : ch ']' ∉ port) : trimPort (host ++ ch ':' :: port) = host := by
  simp [trimPort, cutLast_append host hcolon, hport]

theorem trimPort_rest (s : Bytes) :
    ∃ rest, s = trimPort s ++ rest ∧ (rest = [] ∨ ch ':' ∈ rest) := by
  unfold trimPort
  split
  next host port hcut =>
    split
    · exact ⟨[], by simp⟩
    · exact ⟨ch ':' :: port, cutLast_eq_some hcut, .inr List.mem_cons_self⟩
  next => exact ⟨[], by simp⟩

theorem stripTrailingDot_rest (s : Bytes) :
    ∃ rest, s = stripTrailingDot s ++ rest ∧ (rest = [] ∨ dot ∈ rest) := by
  unfold stripTrailingDot
  split
  next h =>
    obtain ⟨t, rfl⟩ := List.getLast?_eq_some_iff.mp h.2
    exact ⟨[dot], by simp, .inr List.mem_cons_self⟩
  next => exact ⟨[], by simp⟩

theorem stripUserinfo_of_last (a : Bytes) {b : Bytes} (h : ch '@' ∉ b) :
    stripUserinfo (a ++ ch '@' :: b) = b := by
  simp [stripUserinfo, cutLast_append a h]

theorem stripUserinfo_eq_self {s : Bytes} (h : ch '@' ∉ s) : stripUserinfo s = s := by
  simp [stripUserinfo, cutLast_eq_none h]

/-! ## Authorities that are keyed as they are routed -/

/-- No userinfo, no blank in front, no dot behind the host, and a port that
`net.SplitHostPort` finds or none. -/
structure Plain (h : Bytes) : Prop where
  userinfo : ch '@' ∉ h
  front : ∀ b, h.head? = some b → solid b = true
  dot : stripTrailingDot (trimPort h) = trimPort h
  port : (splitHostPort (trimSpace h)).isSome = true ∨ trimSpace h = h ∧ trimPort h = h

theorem plain_iff (h : Bytes) : Plain h ↔ ch '@' ∉ h ∧ h.head?.all solid = true ∧
    stripTrailingDot (trimPort h) = trimPort h ∧
    ((splitHostPort (trimSpace h)).isSome = true ∨ trimSpace h = h ∧ trimPort h = h) := by
  constructor
  · intro hp
    exact ⟨hp.userinfo, Option.all_eq_true _ _ |>.mpr hp.front, hp.dot, hp.port⟩
  · rintro ⟨huser, hfront, hdot, hport⟩
    exact ⟨huser, Option.all_eq_true _ _ |>.mp hfront, hdot, hport⟩

instance (h : Bytes) : Decidable (Plain h) := decidable_of_iff' _ (plain_iff h)

/-- The userinfo repeats the host before its first colon, as in `"a:x@a"`; the host is then
found in the wrong place. -/
def Echoed (h : Bytes) : Prop :=
  ch '@' ∈ h ∧ ∃ name, splitHostPort (trimSpace h) = some name ∧
    lowerASCII name = lowerASCII (stripTrailingDot (stripUserinfo h))

def Keyed (h : Bytes) : Prop := Plain h ∨ Echoed h

section
variable {h lead t trail : Bytes}

theorem Trimmed.countP_mark (ht : Trimmed h lead t trail) :
    h.countP mark = t.countP mark := by
  rw [ht.eq, List.countP_append, List.countP_append, countP_mark_blank ht.lead,
    countP_mark_blank ht.trail]
  omega

theorem not_bracket_of_blank {b : UInt8} (h : solid b = false) : bracket b = false := by
  cases hb : bracket b with
  | false => rfl
  | true =>
    rw [solid_of_bracket hb] at h
    cases h

theorem countP_unbracketed {s : Bytes} (h : ∀ b ∈ s, bracket b = false) :
    s.countP (fun b => !bracket b) = s.length := by
  rw [List.countP_eq_length]
  intro b hb
  simp [h b hb]

theorem Trimmed.countP_unbracketed (ht : Trimmed h lead t trail) :
    h.countP (fun b => !bracket b) =
      lead.length + (t.countP (fun b => !bracket b) + trail.length) := by
  rw [ht.eq, List.countP_append, List.countP_append,
    RateLimit.countP_unbracketed fun b hb => not_bracket_of_blank (ht.lead b hb),
    RateLimit.countP_unbracketed fun b hb => not_bracket_of_blank (ht.trail b hb)]

theorem Trimmed.lead_eq_nil_iff (ht : Trimmed h lead t trail) (hne : t ≠ []) :
    lead = [] ↔ ∀ b, h.head? = some b → solid b = true := by
  rw [ht.eq]
  cases lead with
  | nil =>
    simp only [List.nil_append, true_iff]
    intro b hb
    refine ht.head b ?_
    rwa [List.head?_append_of_ne_nil _ hne] at hb
  | cons w lead =>
    have hw : solid w = false := ht.lead w List.mem_cons_self
    simp [hw]

/-- What is no host with a port is the key as it stands, so nothing may have been stripped. -/
theorem unsplit_iff (ht : Trimmed h lead t trail) (hat : ch '@' ∉ h) :
    lowerASCII (trimBrackets t) = lowerASCII (trimBrackets (bareHost h)) ↔
      t = h ∧ trimPort h = h ∧ stripTrailingDot h = h := by
  unfold bareHost
  rw [stripUserinfo_eq_self hat]
  constructor
  · intro he
    obtain ⟨port, hport, hport'⟩ := trimPort_rest h
    obtain ⟨root, hroot, hroot'⟩ := stripTrailingDot_rest (trimPort h)
    have hmark := ink_mark.countP_eq he
    have hrest : (root ++ port).countP mark = 0 := by
      have hwhole : h = stripTrailingDot (trimPort h) ++ (root ++ port) := by
        rw [← List.append_assoc, ← hroot, ← hport]
      have hsum := congrArg (List.countP mark) hwhole
      rw [List.countP_append, ← hmark, ht.countP_mark] at hsum
      omega
    have hnone : ∀ b ∈ root ++ port, ¬ mark b = true := List.countP_eq_zero.mp hrest
    have hport0 : port = [] := by
      refine hport'.resolve_right fun hb => hnone (ch ':') (by simp [hb]) (by decide)
    have hroot0 : root = [] := by
      refine hroot'.resolve_right fun hb => hnone dot (by simp [hb]) (by decide)
    rw [hport0, List.append_nil] at hport
    rw [hroot0, List.append_nil, ← hport] at hroot
    rw [← hport, ← hroot] at he
    have hsum := ht.countP_unbracketed
    rw [ink_unbracketed.countP_eq he] at hsum
    have hlead : lead = [] := List.length_eq_zero_iff.mp (by omega)
    have htrail : trail = [] := List.length_eq_zero_iff.mp (by omega)
    refine ⟨?_, hport.symm, hroot.symm⟩
    rw [ht.eq, hlead, htrail, List.nil_append, List.append_nil]
  · rintro ⟨rfl, hport, hroot⟩
    rw [hport, hroot]

end

section
variable {h lead trail name host port : Bytes}

/-- A host with a port is keyed on the host. -/
theorem split_iff (ht : Trimmed h lead (host ++ ch ':' :: port) trail) (hat : ch '@' ∉ h)
    (hhost : Written name host) (hname : ∀ b ∈ name, bracket b = false)
    (hport : trimPort h = lead ++ host) :
    lowerASCII (trimBrackets name) = lowerASCII (trimBrackets (bareHost h)) ↔
      lead = [] ∧ stripTrailingDot (trimPort h) = trimPort h := by
  unfold bareHost
  rw [stripUserinfo_eq_self hat]
  constructor
  · intro he
    have hdot : stripTrailingDot (trimPort h) = trimPort h := by
      obtain ⟨root, hroot, hroot'⟩ := stripTrailingDot_rest (trimPort h)
      have hmark := ink_mark.countP_eq he
      have hlead : lead.countP mark = 0 := countP_mark_blank ht.lead
      have hrest : root.countP mark = 0 := by
        have hsum := congrArg (List.countP mark) hroot
        rw [List.countP_append, ← hmark, hport, List.countP_append,
          hhost.countP ink_mark] at hsum
        omega
      have hroot0 : root = [] :=
        hroot'.resolve_right fun hb => List.countP_eq_zero.mp hrest dot hb (by decide)
      rw [hroot0, List.append_nil] at hroot
      exact hroot.symm
    refine ⟨?_, hdot⟩
    have hsum := ink_unbracketed.countP_eq he
    rw [hdot, hport, List.countP_append, hhost.countP ink_unbracketed,
      countP_unbracketed fun b hb => not_bracket_of_blank (ht.lead b hb)] at hsum
    exact List.length_eq_zero_iff.mp (by omega)
  · rintro ⟨rfl, hdot⟩
    rw [hdot, hport, List.nil_append, hhost.trimBrackets hname, trimBrackets_eq_self hname]

end

theorem Trimmed.eq_port {h lead host port trail : Bytes}
    (ht : Trimmed h lead (host ++ ch ':' :: port) trail) :
    h = (lead ++ host) ++ ch ':' :: (port ++ trail) := by
  rw [ht.eq]
  simp

/-- A text with the sign is not the key of one without it. -/
theorem lowerASCII_ne_of_at {s t : Bytes} (hs : ch '@' ∈ s) (ht : ch '@' ∉ t) :
    lowerASCII s ≠ lowerASCII t := by
  intro he
  have hcount := congrArg (List.countP (· == ch '@')) he
  have hzero : t.countP (· == ch '@') = 0 := List.count_eq_zero.mpr ht
  rw [ink_at.countP_lowerASCII, ink_at.countP_lowerASCII, hzero] at hcount
  exact List.count_eq_zero.mp hcount hs

theorem Written.at_not_mem {name host : Bytes} (h : Written name host) (hname : ch '@' ∉ name) :
    ch '@' ∉ host := by
  have hcount := h.countP ink_at
  have hzero : name.countP (· == ch '@') = 0 := List.count_eq_zero.mpr hname
  rw [hzero] at hcount
  exact List.count_eq_zero.mp hcount

/-- Where the sign stands behind the colon only, so does the host. -/
theorem stripUserinfo_subset_port {a b : Bytes} (ha : ch '@' ∉ a)
    (hat : ch '@' ∈ a ++ ch ':' :: b) : stripUserinfo (a ++ ch ':' :: b) ⊆ b := by
  have hmem : ch '@' ∈ b := by
    rcases List.mem_append.mp hat with hb | hb
    · exact absurd hb ha
    · exact (List.mem_cons.mp hb).resolve_left (by decide)
  obtain ⟨user, rest, rfl, hrest⟩ := exists_last_of_mem hmem
  have hsplit : a ++ ch ':' :: (user ++ ch '@' :: rest) =
      (a ++ ch ':' :: user) ++ ch '@' :: rest := by simp
  rw [hsplit, stripUserinfo_of_last _ hrest]
  intro b hb
  simp [hb]

theorem at_not_mem_stripUserinfo {h : Bytes} (hat : ch '@' ∈ h) : ch '@' ∉ stripUserinfo h := by
  obtain ⟨user, rest, rfl, hrest⟩ := exists_last_of_mem hat
  rwa [stripUserinfo_of_last user hrest]

/-- A host that is found before the userinfo is the host behind it by accident only. -/
theorem echoed_iff {h lead trail name host port : Bytes}
    (ht : Trimmed h lead (host ++ ch ':' :: port) trail) (hat : ch '@' ∈ h)
    (hhost : Written name host) (hname : ∀ b ∈ name, bracket b = false)
    (hport : ∀ b ∈ port ++ trail, bracket b = false) (hcolon : ch ':' ∉ port ++ trail) :
    lowerASCII (trimBrackets name) = lowerASCII (trimBrackets (bareHost h)) ↔
      lowerASCII name = lowerASCII (stripTrailingDot (stripUserinfo h)) := by
  rw [trimBrackets_eq_self hname]
  by_cases hin : ch '@' ∈ name
  · -- neither host has the sign
    have hrest := at_not_mem_stripUserinfo hat
    have hbare : trimBrackets (bareHost h) ⊆ stripUserinfo h :=
      List.Subset.trans (trimBrackets_subset _)
        (List.Subset.trans (stripTrailingDot_subset _) (trimPort_subset _))
    exact iff_of_false (lowerASCII_ne_of_at hin fun hb => hrest (hbare hb))
      (lowerASCII_ne_of_at hin fun hb => hrest (stripTrailingDot_subset _ hb))
  · have hfront : ch '@' ∉ lead ++ host := by
      intro hb
      rcases List.mem_append.mp hb with hb | hb
      · exact absurd (ht.lead _ hb) (by decide)
      · exact hhost.at_not_mem hin hb
    have hsub : stripUserinfo h ⊆ port ++ trail := by
      rw [ht.eq_port] at hat ⊢
      exact stripUserinfo_subset_port hfront hat
    have htrim : trimPort (stripUserinfo h) = stripUserinfo h := by
      have hnone : ch ':' ∉ stripUserinfo h := fun hb => hcolon (hsub hb)
      simp [trimPort, cutLast_eq_none hnone]
    unfold bareHost
    rw [htrim, trimBrackets_eq_self]
    intro b hb
    exact hport b (hsub (stripTrailingDot_subset _ hb))

theorem splitHostPort_subset (s : Bytes) : (splitHostPort s).getD s ⊆ s := by
  cases hsplit : splitHostPort s with
  | none => exact List.Subset.refl s
  | some name =>
    obtain ⟨host, port, heq, hhost, -⟩ := splitHostPort_eq_some hsplit
    intro b hb
    rw [heq]
    cases hhost with
    | bare => exact List.mem_append_left _ hb
    | bracketed =>
      have hb : b ∈ name := hb
      simp [hb]

theorem canonHost_of_isASCII [Unicode] {h : Bytes} (ha : isASCII h = true) :
    canonHost h =
      lowerASCII (trimBrackets ((splitHostPort (trimSpace h)).getD (trimSpace h))) := by
  obtain ⟨lead, trail, ht⟩ := trimSpace_trimmed ha
  have htrim : trimSpace h ⊆ h := by
    intro b hb
    rw [ht.eq]
    simp [hb]
  exact toLower_eq_lowerASCII (isASCII_of_subset (List.Subset.trans (trimBrackets_subset _)
    (List.Subset.trans (splitHostPort_subset _) htrim)) ha)

theorem not_keyed_of_userinfo {h : Bytes} (hat : ch '@' ∈ h) :
    lowerASCII (trimBrackets (trimSpace h)) ≠ lowerASCII (trimBrackets (bareHost h)) := by
  intro he
  have hcount := ink_at.countP_eq he
  have hzero : (bareHost h).countP (· == ch '@') = 0 := by
    refine List.count_eq_zero.mpr fun hb => at_not_mem_stripUserinfo hat ?_
    exact List.Subset.trans (stripTrailingDot_subset _) (trimPort_subset _) hb
  rw [hzero] at hcount
  exact List.count_eq_zero.mp hcount (mem_trimSpace (by decide) hat)

theorem unsplit_keyed_iff {h lead trail : Bytes} (ht : Trimmed h lead (trimSpace h) trail)
    (hsplit : splitHostPort (trimSpace h) = none) :
    lowerASCII (trimBrackets (trimSpace h)) = lowerASCII (trimBrackets (bareHost h)) ↔
      Keyed h := by
  by_cases hat : ch '@' ∈ h
  · refine iff_of_false (not_keyed_of_userinfo hat) ?_
    rintro (hplain | ⟨-, name, hname, -⟩)
    · exact hplain.userinfo hat
    · rw [hsplit] at hname
      cases hname
  · rw [unsplit_iff ht hat]
    constructor
    · rintro ⟨htrim, hport, hdot⟩
      refine .inl ⟨hat, ?_, by rw [hport, hdot], .inr ⟨htrim, hport⟩⟩
      intro b hb
      exact ht.head b (by rw [htrim]; exact hb)
    · rintro (hplain | hechoed)
      · rcases hplain.port with hsome | ⟨htrim, hport⟩
        · rw [hsplit] at hsome
          cases hsome
        · refine ⟨htrim, hport, ?_⟩
          have hdot := hplain.dot
          rwa [hport] at hdot
      · exact absurd hechoed.1 hat

theorem split_keyed_iff {h lead trail name : Bytes} (ht : Trimmed h lead (trimSpace h) trail)
    (hsplit : splitHostPort (trimSpace h) = some name) :
    lowerASCII (trimBrackets name) = lowerASCII (trimBrackets (bareHost h)) ↔ Keyed h := by
  obtain ⟨host, port, heq, hhost, hname, hport, hcolon⟩ := splitHostPort_eq_some hsplit
  rw [heq] at ht
  have hport' : ∀ b ∈ port ++ trail, bracket b = false := by
    intro b hb
    rcases List.mem_append.mp hb with hb | hb
    · exact hport b hb
    · exact not_bracket_of_blank (ht.trail b hb)
  have hcolon' : ch ':' ∉ port ++ trail := by
    intro hb
    rcases List.mem_append.mp hb with hb | hb
    · exact hcolon hb
    · exact absurd (ht.trail _ hb) (by decide)
  by_cases hat : ch '@' ∈ h
  · rw [echoed_iff ht hat hhost hname hport' hcolon']
    constructor
    · intro he
      exact .inr ⟨hat, name, hsplit, he⟩
    · rintro (hplain | ⟨-, name', hname', he⟩)
      · exact absurd hat hplain.userinfo
      · rw [hsplit] at hname'
        cases hname'
        exact he
  · have hclose : ch ']' ∉ port ++ trail := fun hb => absurd (hport' _ hb) (by decide)
    have htrim : trimPort h = lead ++ host := by
      rw [ht.eq_port, trimPort_port _ hcolon' hclose]
    rw [split_iff ht hat hhost hname htrim, ht.lead_eq_nil_iff (by simp)]
    constructor
    · rintro ⟨hfront, hdot⟩
      exact .inl ⟨hat, hfront, hdot, .inl (by rw [hsplit]; rfl)⟩
    · rintro (hplain | hechoed)
      · exact ⟨hplain.front, hplain.dot⟩
      · exact absurd hechoed.1 hat

/-- The key is the host that is routed, without its brackets. -/
theorem canonHost_eq_iff [Unicode] {h : Bytes} (ha : isASCII h = true) :
    canonHost h = trimBrackets (normalizeHost h) ↔ Keyed h := by
  have hnormal : normalizeHost h = lowerASCII (bareHost h) :=
    toLower_eq_lowerASCII (isASCII_of_subset (bareHost_subset h) ha)
  obtain ⟨lead, trail, ht⟩ := trimSpace_trimmed ha
  rw [canonHost_of_isASCII ha, hnormal, trimBrackets_lowerASCII]
  cases hsplit : splitHostPort (trimSpace h) with
  | none => exact unsplit_keyed_iff ht hsplit
  | some name => exact split_keyed_iff ht hsplit

/-- Authorities that differ in letter case, in blanks and brackets around them, and in a port
that `net.SplitHostPort` finds. -/
def SameText (h₁ h₂ : Bytes) : Prop :=
  lowerASCII (trimBrackets ((splitHostPort (trimSpace h₁)).getD (trimSpace h₁))) =
    lowerASCII (trimBrackets ((splitHostPort (trimSpace h₂)).getD (trimSpace h₂)))

/-- Two authorities of one routed host share a key if both are keyed as they are routed; of those
that are not, only variants of one text do. -/
theorem same_hostKey_iff [Unicode] (e : Engine) (he : e.cfg.key = .host) (r₁ r₂ : Request)
    (h₁ : isASCII r₁.host = true) (h₂ : isASCII r₂.host = true)
    (hsame : normalizeHost r₁.host = normalizeHost r₂.host) :
    key e r₁ = key e r₂ ↔ Keyed r₁.host ∧ Keyed r₂.host ∨
      ¬ Keyed r₁.host ∧ ¬ Keyed r₂.host ∧ SameText r₁.host r₂.host := by
  have hkey : ∀ r, key e r = canonHost r.host := by
    intro r
    unfold key
    rw [he]
  have htext : SameText r₁.host r₂.host ↔ key e r₁ = key e r₂ := by
    rw [hkey, hkey, canonHost_of_isASCII h₁, canonHost_of_isASCII h₂]
    rfl
  rw [htext, hkey, hkey, ← canonHost_eq_iff h₁, ← canonHost_eq_iff h₂]
  constructor
  · intro hk
    rw [hk, hsame]
    by_cases hkeyed : canonHost r₂.host = trimBrackets (normalizeHost r₂.host)
    · exact .inl ⟨hkeyed, hkeyed⟩
    · exact .inr ⟨hkeyed, hkeyed, rfl⟩
  · rintro (⟨hk₁, hk₂⟩ | ⟨-, -, hk⟩)
    · rw [hk₁, hk₂, hsame]
    · exact hk

def byHost : Engine := ⟨⟨1, 1, .host, []⟩, 1, 1, fun _ => ⟨0, by decide⟩⟩

def requestTo (host : String) : Request where
  direction := .request
  host := ascii host
  path := ascii "/"
  method := ascii "GET"
  contentType := []
  sourceIP := []
  body := []
  headers := []

theorem port_and_case_share_key :
    let _ := Unicode.asciiOnly
    key byHost (requestTo "api.example.com") = key byHost (requestTo "API.example.com:8443") := by
  intro _
  have hplain : Plain (ascii "api.example.com") := by decide +kernel
  have hport : Plain (ascii "API.example.com:8443") := by decide +kernel
  refine (same_hostKey_iff byHost rfl _ _ ?_ ?_ ?_).mpr (.inl ⟨.inl hplain, .inl hport⟩)
  · rfl
  · rfl
  · decide +kernel

theorem dot_and_userinfo_split_bucket :
    let _ := Unicode.asciiOnly
    let routed := normalizeHost (ascii "api.example.com")
    normalizeHost (ascii "api.example.com.") = routed ∧
      normalizeHost (ascii "me@api.example.com") = routed ∧
      [key byHost (requestTo "api.example.com"), key byHost (requestTo "api.example.com."),
        key byHost (requestTo "me@api.example.com")].Nodup := by
  refine ⟨?_, ?_, ?_⟩
  · decide +kernel
  · decide +kernel
  · decide +kernel

end ElchiShield.RateLimit
