import ElchiShield.Matcher.Paths

/-! # Dot segments

What a standard server makes of the dot segments of a path is the algorithm
`remove_dot_segments` of RFC 3986, section 5.2.4. `NormalizePath` agrees with it unless a path
ends in a dot segment: then the standard leaves a slash at the end, and `path.Clean` none. -/
namespace ElchiShield.Matcher
open ElchiShield.Go ElchiShield.Lib

/-! ## The algorithm of the standard -/

/-- Repeated slashes as one. -/
def collapseSlashes : Bytes → Bytes
  | a :: b :: rest =>
    if a = slash ∧ b = slash then collapseSlashes (b :: rest) else a :: collapseSlashes (b :: rest)
  | s => s

/-- The output buffer without its last segment and the slash before it. -/
def dropLastSegment (out : Bytes) : Bytes :=
  match cutLast slash out with
  | some (kept, _) => kept
  | none => []

/-- The loop over the input and the output buffer. A round takes at least one byte from the
input, so that its length is enough of rounds. -/
def removeDots : Nat → Bytes → Bytes → Bytes
  | 0, _, out => out
  | _, [], out => out
  | n + 1, c :: t, out =>
    let inp := c :: t
    if (ascii "../").isPrefixOf inp then removeDots n (inp.drop 3) out
    else if (ascii "./").isPrefixOf inp then removeDots n (inp.drop 2) out
    else if (ascii "/./").isPrefixOf inp then removeDots n (inp.drop 2) out
    else if inp = ascii "/." then removeDots n [slash] out
    else if (ascii "/../").isPrefixOf inp then removeDots n (inp.drop 3) (dropLastSegment out)
    else if inp = ascii "/.." then removeDots n [slash] (dropLastSegment out)
    else if inp = ascii "." ∨ inp = ascii ".." then removeDots n [] out
    else removeDots n (t.dropWhile (· ≠ slash)) (out ++ c :: t.takeWhile (· ≠ slash))

def removeDotSegments (path : Bytes) : Bytes := removeDots path.length path []

example : removeDotSegments (ascii "/a/b/c/./../../g") = ascii "/a/g" := by decide
example : removeDotSegments (ascii "mid/content=5/../6") = ascii "mid/6" := by decide

/-! ## One round, by the first segment -/

section
variable {n : Nat} {segs : List Bytes} {seg out : Bytes}

theorem removeDots_nil : removeDots n [] out = out := by
  cases n <;> rfl

theorem removeDots_dot (h : segs ≠ []) :
    removeDots (n + 1) (rootedText slash ([dot] :: segs)) out =
      removeDots n (rootedText slash segs) out := by
  cases segs with
  | nil => exact absurd rfl h
  | cons next rest => rfl

theorem removeDots_dots (h : segs ≠ []) :
    removeDots (n + 1) (rootedText slash ([dot, dot] :: segs)) out =
      removeDots n (rootedText slash segs) (dropLastSegment out) := by
  cases segs with
  | nil => exact absurd rfl h
  | cons next rest => rfl

theorem removeDots_last_dot :
    removeDots (n + 1) (rootedText slash [[dot]]) out = removeDots n (rootedText slash [[]]) out :=
  rfl

theorem removeDots_last_dots :
    removeDots (n + 1) (rootedText slash [[dot, dot]]) out =
      removeDots n (rootedText slash [[]]) (dropLastSegment out) :=
  rfl

theorem removeDots_moves (h : Segments slash (seg :: segs)) (hdot : seg ≠ [dot])
    (hdots : seg ≠ [dot, dot]) :
    removeDots (n + 1) (rootedText slash (seg :: segs)) out =
      removeDots n (rootedText slash segs) (out ++ slash :: seg) := by
  have hseg : slash ∉ seg := h seg List.mem_cons_self
  have hnot : ∀ x : Bytes, slash ∉ x → seg ≠ x →
      (slash :: x ++ [slash]).isPrefixOf (rootedText slash (seg :: segs)) = false ∧
        rootedText slash (seg :: segs) ≠ slash :: x := by
    intro x hx hne
    refine ⟨?_, ?_⟩
    · rw [← Bool.not_eq_true, List.isPrefixOf_iff_prefix, h.prefix_iff hx]
      exact fun hboth => hne hboth.1
    · rw [Ne, h.text_eq_iff hx]
      exact fun hboth => hne hboth.1
  have hdot1 : ¬ (ascii "/./").isPrefixOf (slash :: (seg ++ rootedText slash segs)) = true :=
    Bool.eq_false_iff.mp (hnot [dot] (by decide) hdot).1
  have hdot2 : slash :: (seg ++ rootedText slash segs) ≠ ascii "/." :=
    (hnot [dot] (by decide) hdot).2
  have hdots1 : ¬ (ascii "/../").isPrefixOf (slash :: (seg ++ rootedText slash segs)) = true :=
    Bool.eq_false_iff.mp (hnot [dot, dot] (by decide) hdots).1
  have hdots2 : slash :: (seg ++ rootedText slash segs) ≠ ascii "/.." :=
    (hnot [dot, dot] (by decide) hdots).2
  rw [rootedText_cons, List.cons_append, removeDots,
    if_neg (by simp [ascii, ch, slash]), if_neg (by simp [ascii, ch, slash]), if_neg hdot1,
    if_neg hdot2, if_neg hdots1, if_neg hdots2, if_neg (by simp [ascii, ch, slash]),
    Segments.takeWhile_text hseg, Segments.dropWhile_text hseg]

end

/-- The output buffer loses its last segment. -/
theorem dropLastSegment_text {stack : List Bytes} (h : Segments slash stack) :
    dropLastSegment (rootedText slash stack.reverse) = rootedText slash stack.tail.reverse := by
  cases stack with
  | nil => rfl
  | cons top rest =>
    have htop : slash ∉ top := h top List.mem_cons_self
    have htext : rootedText slash (top :: rest).reverse =
        rootedText slash rest.reverse ++ slash :: top := by simp
    rw [dropLastSegment, htext, cutLast_append _ htop]
    rfl

/-! ## The whole loop -/

/-- The standard ends a path with a slash where its last segment is a dot segment, too. -/
def endsOpen (last : Bytes) : Bool := last = [] || last = [dot] || last = [dot, dot]

theorem not_endsOpen {last : Bytes} (h : endsOpen last = false) : ProperSegment last := by
  simp only [endsOpen, Bool.or_eq_false_iff, decide_eq_false_iff_not] at h
  exact ⟨h.1.1, h.1.2, h.2⟩

theorem removeDots_last {n : Nat} {last : Bytes} {stack : List Bytes} (hlast : slash ∉ last)
    (hstack : Segments slash stack) (hproper : ∀ seg ∈ stack, ProperSegment seg)
    (hn : (rootedText slash [last]).length ≤ n) :
    removeDots n (rootedText slash [last]) (rootedText slash stack.reverse) =
      rootedText slash ((cleanSegment true stack last).reverse ++ closing (endsOpen last)) := by
  have hslash : ∀ m out, removeDots (m + 1) (rootedText slash [[]]) out = out ++ [slash] := by
    intro m out
    rw [removeDots_moves (by simp [Segments]) (by decide) (by decide)]
    exact removeDots_nil
  simp only [rootedText_cons, rootedText_nil, List.append_nil, List.length_cons] at hn
  obtain ⟨m, rfl⟩ : ∃ m, n = m + 1 := ⟨n - 1, by omega⟩
  by_cases hopen : endsOpen last = true
  · have htext : rootedText slash ((cleanSegment true stack last).reverse ++ closing true) =
        rootedText slash (cleanSegment true stack last).reverse ++ [slash] := by simp [closing]
    rw [hopen, htext]
    simp only [endsOpen, Bool.or_eq_true, decide_eq_true_eq] at hopen
    rcases hopen with (rfl | rfl) | rfl
    · rw [hslash, cleanSegment_skip (.inl rfl)]
    · obtain ⟨k, rfl⟩ : ∃ k, m = k + 1 := ⟨m - 1, by simp at hn; omega⟩
      rw [removeDots_last_dot, hslash, cleanSegment_skip (.inr rfl)]
    · obtain ⟨k, rfl⟩ : ∃ k, m = k + 1 := ⟨m - 1, by simp at hn; omega⟩
      rw [removeDots_last_dots, hslash, dropLastSegment_text hstack, cleanSegment_dots hproper]
  · rw [Bool.not_eq_true] at hopen
    have hname := not_endsOpen hopen
    rw [removeDots_moves (by simpa [Segments] using hlast) hname.ne_dot hname.ne_dots,
      rootedText_nil, removeDots_nil, cleanSegment_proper hname, hopen]
    simp [closing]

/-- The stack of the output follows the fold of `path.Clean`, segment by segment. -/
theorem removeDots_text {n : Nat} {init : List Bytes} {last : Bytes} {stack : List Bytes}
    (hsegs : Segments slash (init ++ [last])) (hne : ∀ seg ∈ init, seg ≠ [])
    (hstack : Segments slash stack) (hproper : ∀ seg ∈ stack, ProperSegment seg)
    (hn : (rootedText slash (init ++ [last])).length ≤ n) :
    removeDots n (rootedText slash (init ++ [last])) (rootedText slash stack.reverse) =
      rootedText slash (((init ++ [last]).foldl (cleanSegment true) stack).reverse ++
        closing (endsOpen last)) := by
  induction init generalizing n stack with
  | nil => exact removeDots_last (hsegs last (by simp)) hstack hproper hn
  | cons seg init ih =>
    have hrest : init ++ [last] ≠ [] := by simp
    have hmore : Segments slash (init ++ [last]) := fun s hs => hsegs s (List.mem_cons_of_mem _ hs)
    rw [List.cons_append] at hsegs
    rw [List.cons_append, rootedText_cons, List.length_append, List.length_cons] at hn
    obtain ⟨m, rfl⟩ : ∃ m, n = m + 1 := ⟨n - 1, by omega⟩
    have hm : (rootedText slash (init ++ [last])).length ≤ m := by omega
    -- a round takes one segment, and leaves the stack the fold leaves
    have hnext : Segments slash (cleanSegment true stack seg) ∧
        ∀ s ∈ cleanSegment true stack seg, ProperSegment s := by
      refine ⟨fun s hs => ?_, fun s hs => (cleanSegment_keeps hproper seg s hs).1⟩
      rcases (cleanSegment_keeps hproper seg s hs).2 with rfl | hmem
      · exact hsegs s (by simp)
      · exact hstack s hmem
    have hround : removeDots (m + 1) (rootedText slash (seg :: (init ++ [last])))
        (rootedText slash stack.reverse) = removeDots m (rootedText slash (init ++ [last]))
          (rootedText slash (cleanSegment true stack seg).reverse) := by
      by_cases hdot : seg = [dot]
      · subst hdot
        rw [removeDots_dot hrest, cleanSegment_skip (.inr rfl)]
      · by_cases hdots : seg = [dot, dot]
        · subst hdots
          rw [removeDots_dots hrest, dropLastSegment_text hstack, cleanSegment_dots hproper]
        · rw [removeDots_moves hsegs hdot hdots,
            cleanSegment_proper ⟨hne seg (by simp), hdot, hdots⟩]
          simp
    rw [List.cons_append, hround, List.foldl_cons]
    exact ih hmore (fun s hs => hne s (List.mem_cons_of_mem _ hs)) hnext.1 hnext.2 hm

/-! ## Repeated slashes -/

theorem collapseSlashes_cons {a : UInt8} (h : a ≠ slash) (s : Bytes) :
    collapseSlashes (a :: s) = a :: collapseSlashes s := by
  cases s with
  | nil => rfl
  | cons b s => rw [collapseSlashes, if_neg fun hboth => h hboth.1]

theorem collapseSlashes_segment {seg : Bytes} (h : slash ∉ seg) (s : Bytes) :
    collapseSlashes (seg ++ s) = seg ++ collapseSlashes s := by
  induction seg with
  | nil => rfl
  | cons a seg ih =>
    obtain ⟨ha, hseg⟩ : slash ≠ a ∧ slash ∉ seg := by simpa using h
    rw [List.cons_append, collapseSlashes_cons (Ne.symm ha), ih hseg]
    rfl

/-- Behind its slash, too, when it is not empty. -/
theorem collapseSlashes_slash {seg : Bytes} (h : slash ∉ seg) (hne : seg ≠ []) (s : Bytes) :
    collapseSlashes (slash :: seg ++ s) = slash :: seg ++ collapseSlashes s := by
  cases seg with
  | nil => exact absurd rfl hne
  | cons a seg =>
    have ha : slash ≠ a := by
      intro heq
      exact h (by simp [heq])
    have hstep : collapseSlashes (slash :: a :: (seg ++ s)) =
        slash :: collapseSlashes (a :: (seg ++ s)) := by
      rw [collapseSlashes, if_neg fun hboth => ha hboth.2.symm]
    rw [List.cons_append, List.cons_append, hstep, ← List.cons_append, collapseSlashes_segment h]
    rfl

/-- Only the last segment may be empty. -/
theorem collapseSlashes_text {init : List Bytes} {last : Bytes}
    (h : Segments slash (init ++ [last])) :
    collapseSlashes (rootedText slash (init ++ [last])) =
      rootedText slash (init.filter (· ≠ []) ++ [last]) := by
  induction init with
  | nil =>
    by_cases hlast : last = []
    · subst hlast
      rfl
    · simpa [collapseSlashes] using collapseSlashes_slash (h last (by simp)) hlast []
  | cons seg init ih =>
    have hmore : Segments slash (init ++ [last]) := fun s hs => h s (List.mem_cons_of_mem _ hs)
    by_cases hseg : seg = []
    · subst hseg
      obtain ⟨t, ht⟩ : ∃ t, rootedText slash (init ++ [last]) = slash :: t := by
        cases init with
        | nil => exact ⟨_, rfl⟩
        | cons next rest => exact ⟨_, rfl⟩
      rw [List.filter_cons_of_neg (by simp), ← ih hmore, List.cons_append, rootedText_cons, ht]
      simp [collapseSlashes]
    · rw [List.filter_cons_of_pos (by simpa using hseg), List.cons_append, List.cons_append,
        rootedText_cons, rootedText_cons, ← ih hmore]
      exact collapseSlashes_slash (h seg (by simp)) hseg _

theorem resolved_filter (init : List Bytes) (last : Bytes) :
    resolved (init.filter (· ≠ []) ++ [last]) = resolved (init ++ [last]) := by
  have hfold : ∀ stack, (init.filter (· ≠ [])).foldl (cleanSegment true) stack =
      init.foldl (cleanSegment true) stack := by
    induction init with
    | nil => exact fun stack => rfl
    | cons seg init ih =>
      intro stack
      by_cases hseg : seg = []
      · rw [List.filter_cons_of_neg (by simpa using hseg), ih, List.foldl_cons,
          cleanSegment_skip (.inl hseg)]
      · rw [List.filter_cons_of_pos (by simpa using hseg), List.foldl_cons, ih, List.foldl_cons]
  simp only [resolved, List.foldl_append, hfold]

/-- What the standard makes of a rooted path. -/
theorem removeDotSegments_eq (rest : Bytes) :
    removeDotSegments (collapseSlashes (slash :: rest)) =
      rootedText slash (resolved (rest.splitOn slash) ++
        closing ((rest.splitOn slash).getLast?.any endsOpen)) := by
  have hsegs := Segments.splitOn slash rest
  rw [← rootedText_splitOn rest]
  obtain hnil | ⟨init, last, hsplit⟩ := (rest.splitOn slash).eq_nil_or_concat
  · exact absurd hnil (List.splitOn_ne_nil slash rest)
  · rw [List.concat_eq_append] at hsplit
    rw [hsplit] at hsegs ⊢
    have hfiltered : Segments slash (init.filter (· ≠ []) ++ [last]) := by
      intro seg hseg
      refine hsegs seg ?_
      rcases List.mem_append.mp hseg with hmem | hmem
      · exact List.mem_append_left _ (List.mem_filter.mp hmem).1
      · exact List.mem_append_right _ hmem
    have hne : ∀ seg ∈ init.filter (· ≠ []), seg ≠ [] := by
      intro seg hseg
      simpa using (List.mem_filter.mp hseg).2
    have hrun := @removeDots_text _ _ _ [] hfiltered hne (by simp [Segments]) (by simp) le_rfl
    rw [collapseSlashes_text hsegs, removeDotSegments, ← resolved_filter, List.getLast?_concat]
    exact hrun

/-! ## Where the two agree -/

/-- How far a path leads down from the root: a name is one level down, a pair of dots one up. -/
def depth (segs : List Bytes) : Nat :=
  segs.foldl (fun d seg =>
    if seg = [] ∨ seg = [dot] then d else if seg = [dot, dot] then d - 1 else d + 1) 0

theorem length_resolved (segs : List Bytes) : (resolved segs).length = depth segs := by
  induction segs using List.reverseRecOn with
  | nil => rfl
  | append_singleton segs seg ih =>
    have hproper : ∀ s ∈ (resolved segs).reverse, ProperSegment s := fun s hs =>
      (resolved_mem segs s (List.mem_reverse.mp hs)).1
    have hdepth : depth (segs ++ [seg]) = if seg = [] ∨ seg = [dot] then depth segs
        else if seg = [dot, dot] then depth segs - 1 else depth segs + 1 := by
      simp [depth]
    rw [resolved_append, List.length_reverse, hdepth, ← ih]
    by_cases hskip : seg = [] ∨ seg = [dot]
    · rw [if_pos hskip, cleanSegment_skip hskip, List.length_reverse]
    · rw [if_neg hskip]
      by_cases hdots : seg = [dot, dot]
      · rw [if_pos hdots, hdots, cleanSegment_dots hproper, List.length_tail, List.length_reverse]
      · have hname : ProperSegment seg :=
          ⟨fun hn => hskip (.inl hn), fun hd => hskip (.inr hd), hdots⟩
        rw [if_neg hdots, cleanSegment_proper hname, List.length_cons, List.length_reverse]

/-- The last segment is no dot segment, or the path leads back to the root. -/
def EndsPlain (path : Bytes) : Prop :=
  (path.tail.splitOn slash).getLast? ≠ some [dot] ∧
      (path.tail.splitOn slash).getLast? ≠ some [dot, dot] ∨
    depth (path.tail.splitOn slash) = 0

instance (path : Bytes) : Decidable (EndsPlain path) := inferInstanceAs (Decidable (_ ∨ _))

/-- The two closing slashes are the same. -/
theorem keepsSlash_eq_iff (rest : Bytes) :
    keepsSlash (rest.splitOn slash) = (rest.splitOn slash).getLast?.any endsOpen ↔
      EndsPlain (slash :: rest) := by
  have hzero : resolved (rest.splitOn slash) = [] ↔ depth (rest.splitOn slash) = 0 := by
    rw [← length_resolved, List.length_eq_zero_iff]
  unfold EndsPlain keepsSlash
  rw [List.tail_cons, ← hzero]
  obtain hnil | ⟨init, last, hsplit⟩ := (rest.splitOn slash).eq_nil_or_concat
  · exact absurd hnil (List.splitOn_ne_nil slash rest)
  · rw [List.concat_eq_append] at hsplit
    rw [hsplit, List.getLast?_concat, Option.any_some]
    by_cases hopen : endsOpen last = true
    · rw [hopen]
      simp only [endsOpen, Bool.or_eq_true, decide_eq_true_eq] at hopen
      rcases hopen with (rfl | rfl) | rfl
      · simp
      · simp
      · simp
    · rw [Bool.not_eq_true] at hopen
      have hname := not_endsOpen hopen
      have hsome : resolved (init ++ [last]) ≠ [] := by
        rw [resolved_append, cleanSegment_proper hname]
        simp
      simp [hopen, hsome, hname.ne_nil, hname.ne_dot, hname.ne_dots]

section
variable {segs : List Bytes} {a b : Bool}

theorem text_closing_inj :
    rootedText slash (segs ++ closing a) = rootedText slash (segs ++ closing b) ↔ a = b := by
  cases a <;> cases b <;> simp [closing]

/-- Where the slash is missing, the path is not under the directory it is. -/
theorem under_missing (h : segs ≠ []) :
    ∃ d, slash :: d ++ [slash] <+: rootedText slash (segs ++ closing true) ∧
      ¬ slash :: d ++ [slash] <+: rootedText slash (segs ++ closing false) := by
  obtain ⟨d, hd⟩ : ∃ d, rootedText slash segs = slash :: d := by
    cases segs with
    | nil => exact absurd rfl h
    | cons seg rest => exact ⟨_, rfl⟩
  refine ⟨d, ?_, ?_⟩
  · simp [closing, hd]
  · intro hprefix
    have hlength := hprefix.length_le
    simp only [closing, hd, Bool.false_eq_true, if_false, List.append_nil, List.cons_append,
      List.length_cons, List.length_append, List.length_nil] at hlength
    omega

end

/-- A path that ends in a dot segment below the root: the standard ends it with a slash. -/
theorem slash_missing {rest : Bytes} (h : ¬ EndsPlain (slash :: rest)) :
    resolved (rest.splitOn slash) ≠ [] ∧ keepsSlash (rest.splitOn slash) = false ∧
      (rest.splitOn slash).getLast?.any endsOpen = true := by
  have hsome : resolved (rest.splitOn slash) ≠ [] := by
    intro hnone
    refine h (.inr ?_)
    rw [List.tail_cons, ← length_resolved, hnone]
    rfl
  have hkeeps : keepsSlash (rest.splitOn slash) = false := by
    have hlast : (rest.splitOn slash).getLast? ≠ some [] := by
      intro hlast
      exact h (.inl (by simp [hlast]))
    simp [keepsSlash, hsome, hlast]
  refine ⟨hsome, hkeeps, ?_⟩
  rw [← keepsSlash_eq_iff, hkeeps] at h
  exact Bool.eq_true_of_not_eq_false (Ne.symm h)

/-- `NormalizePath` gives what a standard server resolves, and a route with a directory as its
prefix matches every path resolved under that directory, for the paths that end plainly and for
no other. -/
theorem normalizePath_agrees_iff (raw decoded : Bytes) (hraw : raw.head? = some slash)
    (hdecoded : pathUnescape (pathPart raw) = some decoded) :
    (normalizePath raw = removeDotSegments (collapseSlashes decoded) ↔ EndsPlain decoded) ∧
    ((∀ d, slash :: d ++ [slash] <+: removeDotSegments (collapseSlashes decoded) →
        (Path.pre (slash :: d ++ [slash])).match (normalizePath raw) = true) ↔
      EndsPlain decoded) := by
  obtain ⟨rest, hrest⟩ := decodedPath_rooted hraw
  have hpath : decodedPath raw = decoded := by
    rw [decodedPath, hdecoded]
    rfl
  obtain rfl : decoded = slash :: rest := hpath.symm.trans hrest
  have hsame := keepsSlash_eq_iff rest
  rw [normalizePath_eq hrest, removeDotSegments_eq]
  refine ⟨?_, ?_⟩
  · rw [text_closing_inj, hsame]
  · constructor
    · intro hunder
      by_contra hends
      obtain ⟨hsome, hkeeps, hopen⟩ := slash_missing hends
      obtain ⟨d, hd, hnot⟩ := under_missing hsome
      rw [hkeeps, hopen] at hunder
      exact hnot (List.isPrefixOf_iff_prefix.mp (hunder d hd))
    · intro hends d hprefix
      rw [← hsame] at hends
      rw [← hends] at hprefix
      exact List.isPrefixOf_iff_prefix.mpr hprefix

theorem spelling_of_archive_agrees :
    let raw := ascii "/x/.%2e//d/./%61rchive/?page=2"
    let decoded := ascii "/x/..//d/./archive/"
    raw.head? = some slash ∧ pathUnescape (pathPart raw) = some decoded ∧
      normalizePath raw = ascii "/d/archive/" ∧
        (Path.pre (ascii "/d/")).match (normalizePath raw) = true := by
  intro raw decoded
  have hraw : raw.head? = some slash := by decide +kernel
  have hdecoded : pathUnescape (pathPart raw) = some decoded := by decide +kernel
  have hends : EndsPlain decoded := by decide +kernel
  obtain ⟨hsame, hunder⟩ := normalizePath_agrees_iff raw decoded hraw hdecoded
  refine ⟨hraw, hdecoded, (hsame.mpr hends).trans (by decide +kernel), ?_⟩
  exact hunder.mpr hends (ascii "d") (List.isPrefixOf_iff_prefix.mp (by decide +kernel))

/-- A dot behind the directory: a standard server resolves it under "/d/", and the route with
that prefix does not match. -/
theorem dot_dodges_directory_route :
    let raw := ascii "/d/."
    pathUnescape (pathPart raw) = some raw ∧
      removeDotSegments (collapseSlashes raw) = ascii "/d/" ∧
      normalizePath raw = ascii "/d" ∧
        (Path.pre (ascii "/d/")).match (normalizePath raw) = false := by
  decide +kernel

end ElchiShield.Matcher
