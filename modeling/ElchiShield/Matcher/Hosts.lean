import ElchiShield.Config.Accepted
import ElchiShield.Go.Ascii
import ElchiShield.Matcher
import Mathlib.Data.Prod.Lex

/-! # What a configured host matches

A host that passes validation is "*", a wildcard or an exact name, and each compiles to
the matcher of its kind. `hostRank` says what the kinds match and how they rank, in terms
of the host as it is written. -/
namespace ElchiShield.Matcher
open ElchiShield.Go ElchiShield.Config

/-! ## Host names -/

/-- Labels joined by dots. -/
def isName (t : Bytes) : Bool := (t.splitOn dot).all fun l => l ≠ [] && l.all isLabelByte

theorem mem_splitOn {a b : UInt8} {t : Bytes} (h : b ∈ t) :
    b = a ∨ ∃ l ∈ t.splitOn a, b ∈ l := by
  induction t with
  | nil => cases h
  | cons c t ih =>
    rw [List.splitOn_cons_eq_if_modifyHead]
    split
    next hc =>
      rcases List.mem_cons.mp h with rfl | h
      · exact .inl (by simpa using hc)
      · rcases ih h with h | ⟨l, hl, hb⟩
        · exact .inl h
        · exact .inr ⟨l, List.mem_cons_of_mem _ hl, hb⟩
    next hc =>
      cases hs : t.splitOn a with
      | nil => exact absurd hs (List.splitOn_ne_nil a t)
      | cons p ps =>
        rw [List.modifyHead_cons]
        rcases List.mem_cons.mp h with rfl | h
        · exact .inr ⟨b :: p, List.mem_cons_self, List.mem_cons_self⟩
        · rcases ih h with h | ⟨l, hl, hb⟩
          · exact .inl h
          · rw [hs] at hl
            rcases List.mem_cons.mp hl with rfl | hl
            · exact .inr ⟨c :: l, List.mem_cons_self, List.mem_cons_of_mem _ hb⟩
            · exact .inr ⟨l, List.mem_cons_of_mem _ hl, hb⟩

theorem isName_byte {t : Bytes} (h : isName t = true) {b : UInt8} (hb : b ∈ t) :
    b = dot ∨ isLabelByte b = true := by
  rcases mem_splitOn (a := dot) hb with hb | ⟨l, hl, hb⟩
  · exact .inl hb
  · have hl := List.all_eq_true.mp h l hl
    exact .inr (List.all_eq_true.mp (Bool.and_eq_true_iff.mp hl).2 b hb)

theorem isName_ne_nil {t : Bytes} (h : isName t = true) : t ≠ [] := by
  rintro rfl
  simp [isName] at h

theorem isName_getLast {t : Bytes} (h : isName t = true) : t.getLast? ≠ some dot := by
  intro hlast
  obtain ⟨u, rfl⟩ := List.getLast?_eq_some_iff.mp hlast
  have hsplit : (u ++ [dot]).splitOn dot = u.splitOn dot ++ [[]] := by
    simpa using List.splitOn_append_cons_self (a := dot) u []
  simp [isName, hsplit] at h

/-- What is true of the bytes of a name, checked byte by byte. -/
structure NameByte (b : UInt8) : Prop where
  ascii : b < 128
  solid : Go.solid b = true
  not_at : b ≠ ch '@'
  not_colon : b ≠ ch ':'
  not_star : b ≠ ch '*'

instance (b : UInt8) : Decidable (NameByte b) :=
  decidable_of_iff
    (b < 128 ∧ Go.solid b = true ∧ b ≠ ch '@' ∧ b ≠ ch ':' ∧ b ≠ ch '*')
    ⟨fun ⟨a, b, c, d, e⟩ => ⟨a, b, c, d, e⟩, fun ⟨a, b, c, d, e⟩ => ⟨a, b, c, d, e⟩⟩

theorem nameByte_of_label : ∀ b : UInt8, b = dot ∨ isLabelByte b = true → NameByte b :=
  forall_byte (by decide +kernel)

theorem isName_nameByte {t : Bytes} (h : isName t = true) {b : UInt8} (hb : b ∈ t) : NameByte b :=
  nameByte_of_label b (isName_byte h hb)

theorem isName_isASCII {t : Bytes} (h : isName t = true) : isASCII t = true :=
  isASCII_iff.mpr fun _ hb => (isName_nameByte h hb).ascii

theorem trimSpace_of_solid {t : Bytes} (h : ∀ b ∈ t, Go.solid b = true) : trimSpace t = t := by
  cases t with
  | nil => rfl
  | cons b t =>
    obtain ⟨u, c, hu⟩ : ∃ u c, b :: t = u ++ [c] := by
      simpa using List.eq_nil_or_concat (b :: t)
    exact trimSpace_eq_self (h b List.mem_cons_self) (h c (hu ▸ by simp)) rfl hu

theorem stripTrailingDot_of_getLast {t : Bytes} (h : t.getLast? ≠ some dot) :
    stripTrailingDot t = t := by
  simp [stripTrailingDot, h]

theorem lowerByte_ne_dot : ∀ b : UInt8, b ≠ dot → lowerByte b ≠ dot :=
  forall_byte (by decide +kernel)

theorem lowerASCII_getLast {t : Bytes} (h : t.getLast? ≠ some dot) :
    (lowerASCII t).getLast? ≠ some dot := by
  rw [lowerASCII, List.getLast?_map]
  cases hl : t.getLast? with
  | none => simp
  | some b =>
    have hb : b ≠ dot := fun hb => h (hb ▸ hl)
    simpa using lowerByte_ne_dot b hb

theorem stripUserinfo_subset (host : Bytes) : stripUserinfo host ⊆ host := by
  unfold stripUserinfo
  split
  next h =>
    rw [cutLast_eq_some h]
    intro b hb
    simp [hb]
  next => exact List.Subset.refl _

theorem trimPort_subset (host : Bytes) : trimPort host ⊆ host := by
  unfold trimPort
  split
  next h =>
    split
    · exact List.Subset.refl _
    · rw [cutLast_eq_some h]
      exact List.subset_append_left _ _
  next => exact List.Subset.refl _

theorem stripTrailingDot_subset (host : Bytes) : stripTrailingDot host ⊆ host := by
  unfold stripTrailingDot
  split
  · exact List.dropLast_subset host
  · exact List.Subset.refl _

theorem bareHost_subset (host : Bytes) : bareHost host ⊆ host :=
  List.Subset.trans (stripTrailingDot_subset _)
    (List.Subset.trans (trimPort_subset _) (stripUserinfo_subset host))

/-- A name is its own bare host. -/
theorem bareHost_of_isName {t : Bytes} (h : isName t = true) : bareHost t = t := by
  have hat : ch '@' ∉ t := fun hb => (isName_nameByte h hb).not_at rfl
  have hcolon : ch ':' ∉ t := fun hb => (isName_nameByte h hb).not_colon rfl
  have hu : stripUserinfo t = t := by simp [stripUserinfo, cutLast_eq_none hat]
  have hp : trimPort t = t := by simp [trimPort, cutLast_eq_none hcolon]
  rw [bareHost, hu, hp, stripTrailingDot_of_getLast (isName_getLast h)]

/-! ## The three kinds of hosts -/

def wildcardMark : Bytes := ascii "*."

theorem cutPrefix_eq_some {p s rest : Bytes} (h : cutPrefix p s = some rest) : s = p ++ rest := by
  unfold cutPrefix at h
  split at h
  next hp =>
    obtain ⟨t, rfl⟩ := List.isPrefixOf_iff_prefix.mp hp
    rw [List.drop_left] at h
    rw [Option.some.inj h]
  next => cases h

@[simp] theorem cutPrefix_append (p rest : Bytes) : cutPrefix p (p ++ rest) = some rest := by
  simp [cutPrefix]

theorem validHost_cases {h : Bytes} (hv : ValidHost h) :
    h = star ∨ (∃ rest, h = wildcardMark ++ rest ∧ isName rest = true) ∨
      (cutPrefix wildcardMark h = none ∧ isName h = true) := by
  rcases hv with hv | hv
  · exact .inl hv
  · unfold hostRe at hv
    cases hc : cutPrefix (ascii "*.") h with
    | some rest =>
      rw [hc] at hv
      exact .inr (.inl ⟨rest, cutPrefix_eq_some hc, hv⟩)
    | none =>
      rw [hc] at hv
      exact .inr (.inr ⟨hc, hv⟩)

theorem lowerByte_eq_star : ∀ b : UInt8, lowerByte b = ch '*' → b = ch '*' :=
  forall_byte (by decide +kernel)

theorem lower_not_star {h : Bytes} (hn : isName h = true) : ch '*' ∉ lowerASCII h := by
  intro hm
  obtain ⟨b, hb, hl⟩ := List.mem_map.mp hm
  exact (isName_nameByte hn hb).not_star (lowerByte_eq_star b hl)

theorem cutPrefix_wildcard_eq_none {h : Bytes} (hs : ch '*' ∉ h) :
    cutPrefix wildcardMark h = none := by
  cases hc : cutPrefix wildcardMark h with
  | none => rfl
  | some rest => exact absurd (by rw [cutPrefix_eq_some hc]; exact List.mem_cons_self) hs

section
variable [Library]

theorem toLower_of_isName {h : Bytes} (hn : isName h = true) : toLower h = lowerASCII h :=
  toLower_eq_lowerASCII (isName_isASCII hn)

theorem hostKey_of_isName {h : Bytes} (hn : isName h = true) : hostKey h = lowerASCII h := by
  rw [hostKey, trimSpace_of_solid fun b hb => (isName_nameByte hn hb).solid, toLower_of_isName hn]

theorem hostKey_wildcard {rest : Bytes} (hn : isName rest = true) :
    hostKey (wildcardMark ++ rest) = wildcardMark ++ lowerASCII rest := by
  have hsolid : ∀ b ∈ wildcardMark ++ rest, Go.solid b = true := by
    intro b hb
    rcases List.mem_append.mp hb with hb | hb
    · exact List.all_eq_true.mp (by decide : wildcardMark.all Go.solid = true) b hb
    · exact (isName_nameByte hn hb).solid
  have hascii : isASCII (wildcardMark ++ rest) = true := by
    refine isASCII_iff.mpr fun b hb => ?_
    rcases List.mem_append.mp hb with hb | hb
    · exact isASCII_iff.mp (by decide : isASCII wildcardMark = true) b hb
    · exact (isName_nameByte hn hb).ascii
  rw [hostKey, trimSpace_of_solid hsolid, toLower_eq_lowerASCII hascii, lowerASCII_append]
  rfl

theorem compileHost_star : compileHost star = .ok .catchAll := rfl

theorem compileHost_wildcard {rest : Bytes} (hn : isName rest = true) :
    compileHost (wildcardMark ++ rest) = .ok (.wildcard (dot :: lowerASCII rest)) := by
  have hne : lowerASCII rest ≠ [] := by simpa [lowerASCII] using isName_ne_nil hn
  have hstrip : stripTrailingDot (lowerASCII rest) = lowerASCII rest :=
    stripTrailingDot_of_getLast (lowerASCII_getLast (isName_getLast hn))
  have hkey : toLower (trimSpace (wildcardMark ++ rest)) = wildcardMark ++ lowerASCII rest :=
    hostKey_wildcard hn
  have hstar : wildcardMark ++ lowerASCII rest ≠ ascii "*" := fun h => by
    simpa [wildcardMark, ascii] using congrArg List.length h
  have hcut : cutPrefix (ascii "*.") (wildcardMark ++ lowerASCII rest) = some (lowerASCII rest) :=
    cutPrefix_append _ _
  simp only [compileHost, hkey, hcut, hstrip, if_neg hstar, if_neg hne]
  rw [if_neg (by simp [wildcardMark, ascii])]

theorem compileHost_exact {h : Bytes} (hn : isName h = true) :
    compileHost h = .ok (.exact (lowerASCII h)) := by
  have hkey : toLower (trimSpace h) = lowerASCII h := hostKey_of_isName hn
  have hne : lowerASCII h ≠ [] := by simpa [lowerASCII] using isName_ne_nil hn
  have hstar : lowerASCII h ≠ ascii "*" := fun he =>
    lower_not_star hn (he ▸ List.mem_cons_self)
  have hcut : cutPrefix (ascii "*.") (lowerASCII h) = none :=
    cutPrefix_wildcard_eq_none (lower_not_star hn)
  have hstrip : stripTrailingDot (lowerASCII h) = lowerASCII h :=
    stripTrailingDot_of_getLast (lowerASCII_getLast (isName_getLast hn))
  simp only [compileHost, hkey, hcut, hstrip, if_neg hne, if_neg hstar]

/-! ## Ranks -/

/-- Specificity in lexicographic order: the kind of the host, then the length of its suffix. -/
abbrev Rank := ℕ ×ₗ ℕ

/-- How a configured host matches the host of a request, if it does: "*" matches anything,
"*.x" what ends in ".x" with something in front, any other host itself. -/
def hostRank (pattern host : Bytes) : Option Rank :=
  if pattern = star then some (toLex (0, 0))
  else match cutPrefix wildcardMark pattern with
    | some rest =>
      let suffix := dot :: toLower rest
      if suffix.length < (normalizeHost host).length ∧ suffix <:+ normalizeHost host then
        some (toLex (1, suffix.length))
      else none
    | none => if normalizeHost host = toLower pattern then some (toLex (2, 0)) else none

/-- The specificity the source gives a rank. -/
def score (ρ : Rank) : Int :=
  match (ofLex ρ).1 with
  | 0 => 0
  | 1 => (ofLex ρ).2
  | _ => hostExactScore

theorem hostRank_star (host : Bytes) : hostRank star host = some (toLex (0, 0)) := if_pos rfl

theorem hostRank_wildcard {rest : Bytes} (hn : isName rest = true) (host : Bytes) :
    hostRank (wildcardMark ++ rest) host =
      if rest.length + 1 < (normalizeHost host).length ∧
          dot :: lowerASCII rest <:+ normalizeHost host then
        some (toLex (1, rest.length + 1))
      else none := by
  have hstar : wildcardMark ++ rest ≠ star := fun h => by
    simpa [wildcardMark, Config.star, ascii] using congrArg List.length h
  simp only [hostRank, if_neg hstar, cutPrefix_append, toLower_of_isName hn, List.length_cons,
    lowerASCII_length]

theorem hostRank_exact {h : Bytes} (hn : isName h = true) (host : Bytes) :
    hostRank h host =
      if normalizeHost host = lowerASCII h then some (toLex (2, 0)) else none := by
  have hs : ch '*' ∉ h := fun hb => (isName_nameByte hn hb).not_star rfl
  have hstar : h ≠ star := fun he => hs (he ▸ List.mem_cons_self)
  simp only [hostRank, if_neg hstar, cutPrefix_wildcard_eq_none hs, toLower_of_isName hn]

/-! ## The compiled host implements the rank -/

theorem normalizeHost_of_isASCII {host : Bytes} (h : isASCII host = true) :
    normalizeHost host = lowerASCII (bareHost host) :=
  toLower_eq_lowerASCII (isASCII_of_subset (bareHost_subset host) h)

theorem normalizeHost_of_isName {h : Bytes} (hn : isName h = true) :
    normalizeHost h = lowerASCII h := by
  rw [normalizeHost, bareHost_of_isName hn, toLower_of_isName hn]

theorem hasSuffixFold_iff {s suffix : Bytes} (hs : isASCII s = true)
    (ht : isASCII suffix = true) :
    hasSuffixFold s suffix = true ↔ lowerASCII suffix <:+ lowerASCII s := by
  have hdrop : isASCII (s.drop (s.length - suffix.length)) = true :=
    isASCII_of_subset (List.drop_subset _ _) hs
  rw [hasSuffixFold, Bool.and_eq_true, decide_eq_true_eq, equalFold_iff_lowerASCII hdrop ht,
    List.suffix_iff_eq_drop]
  simp only [lowerASCII_length]
  constructor
  · rintro ⟨-, he⟩
    rw [← he, lowerASCII, lowerASCII, List.map_drop]
  · intro he
    refine ⟨?_, by rw [he, lowerASCII, lowerASCII, List.map_drop]⟩
    have hlen := congrArg List.length he
    simp only [lowerASCII_length, List.length_drop] at hlen
    omega

/-- What a compiled host does on the host of a request, in terms of its rank. -/
structure Implements (c : Host) (rank : Option Rank) (host : Bytes) : Prop where
  match_eq : c.match host = rank.isSome
  specificity_eq : ∀ ρ, rank = some ρ → c.specificity = score ρ

theorem implements_star (host : Bytes) : Implements .catchAll (hostRank star host) host := by
  rw [hostRank_star]
  refine ⟨rfl, ?_⟩
  rintro ρ ⟨⟩
  rfl

theorem implements_wildcard {rest host : Bytes} (hn : isName rest = true)
    (ha : isASCII host = true) :
    Implements (.wildcard (dot :: lowerASCII rest)) (hostRank (wildcardMark ++ rest) host) host := by
  have hbare : isASCII (bareHost host) = true := isASCII_of_subset (bareHost_subset host) ha
  have hsuf : isASCII (dot :: lowerASCII rest) = true := by
    refine isASCII_iff.mpr fun b hb => ?_
    rcases List.mem_cons.mp hb with rfl | hb
    · decide
    · exact isASCII_iff.mp (isASCII_lowerASCII (isName_isASCII hn)) b hb
  have hlower : lowerASCII (dot :: lowerASCII rest) = dot :: lowerASCII rest := by
    show lowerASCII ([dot] ++ lowerASCII rest) = [dot] ++ lowerASCII rest
    rw [lowerASCII_append, lowerASCII_lowerASCII]
    rfl
  have hmatch : (Host.wildcard (dot :: lowerASCII rest)).match host = true ↔
      rest.length + 1 < (normalizeHost host).length ∧
        dot :: lowerASCII rest <:+ normalizeHost host := by
    rw [Host.match, Bool.and_eq_true, decide_eq_true_eq, hasSuffixFold_iff hbare hsuf, hlower,
      normalizeHost_of_isASCII ha, List.length_cons, lowerASCII_length, lowerASCII_length]
  rw [hostRank_wildcard hn]
  by_cases hm : rest.length + 1 < (normalizeHost host).length ∧
      dot :: lowerASCII rest <:+ normalizeHost host
  · rw [if_pos hm]
    refine ⟨hmatch.mpr hm, ?_⟩
    rintro ρ ⟨⟩
    simp [Host.specificity, score]
  · rw [if_neg hm]
    exact ⟨Bool.eq_false_iff.mpr fun h => hm (hmatch.mp h), by simp⟩

theorem implements_exact {h host : Bytes} (hn : isName h = true) (ha : isASCII host = true) :
    Implements (.exact (lowerASCII h)) (hostRank h host) host := by
  have hbare : isASCII (bareHost host) = true := isASCII_of_subset (bareHost_subset host) ha
  have hmatch : (Host.exact (lowerASCII h)).match host = true ↔
      normalizeHost host = lowerASCII h := by
    rw [Host.match, equalFold_iff_lowerASCII hbare (isASCII_lowerASCII (isName_isASCII hn)),
      lowerASCII_lowerASCII, normalizeHost_of_isASCII ha]
  rw [hostRank_exact hn]
  by_cases hm : normalizeHost host = lowerASCII h
  · rw [if_pos hm]
    refine ⟨hmatch.mpr hm, ?_⟩
    rintro ρ ⟨⟩
    rfl
  · rw [if_neg hm]
    exact ⟨Bool.eq_false_iff.mpr fun h => hm (hmatch.mp h), by simp⟩

/-- A valid host compiles, to a matcher that implements its rank on ASCII hosts. -/
theorem compileHost_implements {h : Bytes} (hv : ValidHost h) :
    ∃ c, compileHost h = .ok c ∧ ∀ host, isASCII host = true → Implements c (hostRank h host) host := by
  rcases validHost_cases hv with rfl | ⟨rest, rfl, hn⟩ | ⟨-, hn⟩
  · exact ⟨_, compileHost_star, fun host _ => implements_star host⟩
  · exact ⟨_, compileHost_wildcard hn, fun host ha => implements_wildcard hn ha⟩
  · exact ⟨_, compileHost_exact hn, fun host ha => implements_exact hn ha⟩

/-- Inversion of `hostRank`: what is known when a valid host matches with a rank. -/
inductive Ranked (host : Bytes) : Bytes → Rank → Prop
  | any : Ranked host star (toLex (0, 0))
  | suffix {rest : Bytes} : isName rest = true → dot :: lowerASCII rest <:+ normalizeHost host →
      Ranked host (wildcardMark ++ rest) (toLex (1, rest.length + 1))
  | exact {h : Bytes} : isName h = true → normalizeHost host = lowerASCII h →
      Ranked host h (toLex (2, 0))

theorem ranked_of_hostRank {h host : Bytes} {ρ : Rank} (hv : ValidHost h)
    (hr : hostRank h host = some ρ) : Ranked host h ρ := by
  rcases validHost_cases hv with rfl | ⟨rest, rfl, hn⟩ | ⟨-, hn⟩
  · rw [hostRank_star] at hr
    cases hr
    exact .any
  · rw [hostRank_wildcard hn] at hr
    split at hr
    next hm =>
      cases hr
      exact .suffix hn hm.2
    next => cases hr
  · rw [hostRank_exact hn] at hr
    split at hr
    next hm =>
      cases hr
      exact .exact hn hm
    next => cases hr

/-- A host that compiles to an exact one is found under its key. -/
theorem normalizeHost_of_rank {h host : Bytes} {c : Host} {ρ : Rank} (hv : ValidHost h)
    (hc : compileHost h = .ok c) (hex : c.isExact = true) (hr : hostRank h host = some ρ) :
    normalizeHost h = normalizeHost host := by
  cases ranked_of_hostRank hv hr with
  | any =>
    obtain rfl := Except.ok.inj (compileHost_star.symm.trans hc)
    cases hex
  | suffix hn =>
    obtain rfl := Except.ok.inj ((compileHost_wildcard hn).symm.trans hc)
    cases hex
  | exact hn hm => rw [hm, normalizeHost_of_isName hn]

/-- Two hosts that match with one rank are one host. -/
theorem hostKey_eq_of_rank {h₁ h₂ host : Bytes} {ρ : Rank} (hv₁ : ValidHost h₁)
    (hv₂ : ValidHost h₂) (hr₁ : hostRank h₁ host = some ρ) (hr₂ : hostRank h₂ host = some ρ) :
    hostKey h₁ = hostKey h₂ := by
  have hk₁ := ranked_of_hostRank hv₁ hr₁
  have hk₂ := ranked_of_hostRank hv₂ hr₂
  cases hk₁ with
  | any =>
    generalize hρ : (toLex (0, 0) : Rank) = ρ at hk₂
    cases hk₂ with
    | any => rfl
    | suffix => simp at hρ
    | exact => simp at hρ
  | @suffix rest hn hs =>
    generalize hρ : (toLex (1, rest.length + 1) : Rank) = ρ at hk₂
    cases hk₂ with
    | any => simp at hρ
    | @suffix rest' hn' hs' =>
      have hlen : rest.length = rest'.length := by simpa using hρ
      have heq : dot :: lowerASCII rest = dot :: lowerASCII rest' :=
        (List.suffix_of_suffix_length_le hs hs' (by simp [hlen])).eq_of_length (by simp [hlen])
      rw [hostKey_wildcard hn, hostKey_wildcard hn', List.tail_eq_of_cons_eq heq]
    | exact => simp at hρ
  | exact hn hm =>
    generalize hρ : (toLex (2, 0) : Rank) = ρ at hk₂
    cases hk₂ with
    | any => simp at hρ
    | suffix => simp at hρ
    | exact hn' hm' => rw [hostKey_of_isName hn, hostKey_of_isName hn', ← hm, ← hm']

/-! ## The order of ranks -/

/-- The ranks of hosts whose suffixes score below an exact match. -/
inductive Proper : Rank → Prop
  | any : Proper (toLex (0, 0))
  | suffix (n : ℕ) : 0 < n → n < 1048576 → Proper (toLex (1, n))
  | exact : Proper (toLex (2, 0))

theorem hostRank_proper {h host : Bytes} {ρ : Rank} (hv : ValidHost h)
    (hlen : h.length < 1048576) (hr : hostRank h host = some ρ) : Proper ρ := by
  cases ranked_of_hostRank hv hr with
  | any => exact .any
  | suffix =>
    rw [List.length_append] at hlen
    exact .suffix _ (Nat.succ_pos _) (by simp [wildcardMark, ascii] at hlen; omega)
  | exact => exact .exact

end

theorem score_nonneg (ρ : Rank) : 0 ≤ score ρ := by
  unfold score
  split
  · exact le_rfl
  · exact Int.natCast_nonneg _
  · decide

theorem score_le_score {ρ σ : Rank} (hρ : Proper ρ) (hσ : Proper σ) :
    score ρ ≤ score σ ↔ ρ ≤ σ := by
  cases hρ <;> cases hσ <;>
    simp [score, hostExactScore, Prod.Lex.toLex_le_toLex] <;> omega

end ElchiShield.Matcher
