import ElchiShield.Lib.Attempt
import ElchiShield.Lib.Selection
import ElchiShield.Matcher.Hosts
import ElchiShield.Policy.Compiled
import Mathlib.Algebra.Group.Nat.Defs

/-! # The compiled resolver implements the documented precedence

`specResolve` is the precedence of the documentation as a scan over all domains: the most
specific host wins, then the highest path rank. `Resolver.resolve` answers from its index
instead, and gives the same policies. -/
namespace ElchiShield.Policy
open ElchiShield.Go ElchiShield.Config ElchiShield.Engine ElchiShield.Matcher

section
variable [Library]

/-! ## The precedence -/

/-- The rank of the most specific host of a domain that matches. -/
def domainRank (d : Domain) (host : Bytes) : WithBot Rank :=
  (d.hosts.filterMap fun h => hostRank h host).maximum

def specDomain (mds : List MergedDomain) (host : Bytes) : Option MergedDomain :=
  (mds.filter fun md => domainRank md.domain host ≠ ⊥).argmax fun md => domainRank md.domain host

/-- Exact above regex above prefix above any, longer prefixes above shorter ones. -/
def pathRank (m : Match) : Rank :=
  if m.pathExact ≠ [] then toLex (3, 0)
  else if m.pathRegex ≠ [] then toLex (2, 0)
  else if m.pathPrefix ≠ [] then toLex (1, m.pathPrefix.length)
  else toLex (0, 0)

def acceptsPath (m : Match) (path : Bytes) : Bool :=
  if m.pathExact ≠ [] then path == m.pathExact
  else if m.pathRegex ≠ [] then
    match Library.regexp m.pathRegex with
    | .ok re => re path
    | .error _ => false
  else m.pathPrefix.isPrefixOf path

def acceptsHeader (hm : HeaderMatch) (src : List Engine.Header) : Bool :=
  let v := Engine.header src hm.name
  if hm.exact ≠ [] then v == some hm.exact
  else if hm.contains ≠ [] then v.any fun v => containsSub v hm.contains
  else if hm.regex ≠ [] then
    match Library.regexp hm.regex with
    | .ok re => v.any re
    | .error _ => false
  else v.isSome == hm.present.getD true

def accepts (m : Match) (inp : Input) : Bool :=
  acceptsPath m inp.path && (compileMethods m.methods).match inp.method &&
    (compileContentTypes m.contentType).match inp.contentType &&
    m.headers.all fun hm => acceptsHeader hm inp.headers

/-- The accepting route of highest path rank, the earliest of them, with its index. -/
def specRoute (d : Domain) (inp : Input) : Option (Route × Nat) :=
  (d.routes.zipIdx.filter fun p => accepts p.1.match inp).argmax fun p => pathRank p.1.match

section
variable [Heap] [Constructors]

def specPolicy (fs : FileSystem) (cfg : MergedConfig) (d : Domain) (inp : Input) :
    Except Err CompiledPolicy :=
  match specRoute d inp with
  | some (rt, ri) => policyAlone fs (routeID d ri) (routeResolved cfg d rt)
  | none => policyAlone fs (domainID d) (domainResolved cfg d)

def specResolve (fs : FileSystem) (cfg : MergedConfig) (inp : Input) :
    Option (Except Err CompiledPolicy) :=
  (specDomain cfg.domains inp.host).map fun md => specPolicy fs cfg md.domain inp

end

/-! ## Domains -/

/-- The score of `hostSpecificity`, -1 when no host matches. -/
def scoreBot : WithBot Rank → Int
  | ⊥ => -1
  | (ρ : Rank) => score ρ

def ProperBot (b : WithBot Rank) : Prop := ∀ ρ : Rank, b = ρ → Proper ρ

omit [Library] in
theorem scoreBot_le_scoreBot {a b : WithBot Rank} (ha : ProperBot a) (hb : ProperBot b) :
    scoreBot a ≤ scoreBot b ↔ a ≤ b := by
  cases a with
  | bot =>
    cases b with
    | bot => simp
    | coe σ =>
      have := score_nonneg σ
      simp only [scoreBot, bot_le, iff_true]
      omega
  | coe ρ =>
    cases b with
    | bot =>
      have := score_nonneg ρ
      simp only [scoreBot, WithBot.not_coe_le_bot, iff_false]
      omega
    | coe σ =>
      rw [WithBot.coe_le_coe]
      exact score_le_score (ha ρ rfl) (hb σ rfl)

omit [Library] in
theorem ProperBot.sup {a b : WithBot Rank} (ha : ProperBot a) (hb : ProperBot b) :
    ProperBot (a ⊔ b) := by
  rcases le_total a b with h | h
  · rwa [sup_eq_right.mpr h]
  · rwa [sup_eq_left.mpr h]

/-- The most specific rank among hosts, as a value that is never improper. -/
theorem maximum_proper {host : Bytes} {hosts : List Bytes}
    (hv : ∀ h ∈ hosts, ValidHost h ∧ h.length < 1048576) :
    ProperBot (hosts.filterMap fun h => hostRank h host).maximum := by
  intro ρ hρ
  obtain ⟨h, hh, hr⟩ := List.mem_filterMap.mp (List.maximum_mem hρ)
  exact hostRank_proper (hv h hh).1 (hv h hh).2 hr

/-- One host of the loop of `hostSpecificity`. -/
theorem bestSpecificity_step {host : Bytes} {c : Host} {rank : Option Rank}
    (hc : Implements c rank host) {b : WithBot Rank} (hb : ProperBot b)
    (hr : ∀ ρ, rank = some ρ → Proper ρ) :
    bestSpecificity host (scoreBot b) c = scoreBot (b ⊔ rank.elim ⊥ (↑)) ∧
      ProperBot (b ⊔ rank.elim ⊥ (↑)) := by
  cases rank with
  | none =>
    have hm : c.match host = false := hc.match_eq
    simpa [bestSpecificity, hm] using hb
  | some ρ =>
    have hm : c.match host = true := hc.match_eq
    have hs : c.specificity = scoreBot ρ := hc.specificity_eq ρ rfl
    have hρ : ProperBot ρ := fun σ hσ => hr σ (congrArg some (WithBot.coe_inj.mp hσ))
    refine ⟨?_, hb.sup hρ⟩
    show bestSpecificity host (scoreBot b) c = scoreBot (b ⊔ (ρ : WithBot Rank))
    simp only [bestSpecificity, hm, true_and, hs]
    split
    next hlt =>
      have hle : b ≤ ρ := (scoreBot_le_scoreBot hb hρ).mp (by omega)
      rw [sup_eq_right.mpr hle]
    next hge =>
      have hle : (ρ : WithBot Rank) ≤ b := (scoreBot_le_scoreBot hρ hb).mp (by omega)
      rw [sup_eq_left.mpr hle]

theorem foldl_bestSpecificity {source host : Bytes} (ha : isASCII host = true)
    (hosts : List Bytes) {cs : List Host} (hc : compileHosts source hosts = .ok cs)
    (hv : ∀ h ∈ hosts, ValidHost h ∧ h.length < 1048576) {b : WithBot Rank} (hb : ProperBot b) :
    cs.foldl (bestSpecificity host) (scoreBot b) =
      scoreBot (b ⊔ (hosts.filterMap fun h => hostRank h host).maximum) := by
  induction hosts generalizing cs b with
  | nil =>
    obtain rfl := Except.ok.inj hc
    simp
  | cons h rest ih =>
    obtain ⟨c, hcompile, himpl⟩ := compileHost_implements (hv h List.mem_cons_self).1
    simp only [compileHosts, hcompile] at hc
    split at hc
    next => cases hc
    next cs' hcs =>
      obtain rfl := Except.ok.inj hc
      obtain ⟨hstep, hproper⟩ := bestSpecificity_step (himpl host ha) hb fun ρ hρ =>
        hostRank_proper (hv h List.mem_cons_self).1 (hv h List.mem_cons_self).2 hρ
      rw [List.foldl_cons, hstep, ih hcs (fun k hk => hv k (List.mem_cons_of_mem _ hk)) hproper,
        sup_assoc, List.filterMap_cons]
      cases hostRank h host with
      | none => simp
      | some ρ => simp [List.maximum_cons]

/-- Domains with valid hosts, each host configured once. -/
structure Admissible (mds : List MergedDomain) : Prop where
  hosts : ∀ md ∈ mds, ∀ h ∈ md.domain.hosts, ValidHost h ∧ h.length < 1048576
  unique : (hostKeys mds).Nodup

theorem Admissible.perm {mds mds' : List MergedDomain} (h : Admissible mds)
    (hp : mds'.Perm mds) : Admissible mds' :=
  ⟨fun md hmd => h.hosts md (hp.mem_iff.mp hmd), (hp.flatMap_right _).nodup_iff.mpr h.unique⟩

theorem domainRank_eq_bot {d : Domain} {host : Bytes} :
    domainRank d host = ⊥ ↔ ∀ h ∈ d.hosts, hostRank h host = none := by
  rw [domainRank, List.maximum_eq_bot, List.filterMap_eq_nil_iff]

theorem exists_hostRank {d : Domain} {host : Bytes} {ρ : Rank} (h : domainRank d host = ρ) :
    ∃ k ∈ d.hosts, hostRank k host = some ρ :=
  List.mem_filterMap.mp (List.maximum_mem h)

/-- A host is configured once, so no two domains match with the same rank. -/
theorem Admissible.eq_of_rank {mds : List MergedDomain} (h : Admissible mds) {host : Bytes}
    {md md' : MergedDomain} (hmd : md ∈ mds) (hmd' : md' ∈ mds) {ρ : Rank}
    (hr : domainRank md.domain host = ρ) (hr' : domainRank md'.domain host = ρ) : md = md' := by
  obtain ⟨k, hk, hkr⟩ := exists_hostRank hr
  obtain ⟨k', hk', hkr'⟩ := exists_hostRank hr'
  have hkey : hostKey k = hostKey k' :=
    hostKey_eq_of_rank (h.hosts md hmd k hk).1 (h.hosts md' hmd' k' hk').1 hkr hkr'
  exact Lib.eq_of_mem_keys h.unique hmd hmd' (List.mem_map_of_mem hk)
    (hkey ▸ List.mem_map_of_mem hk')

theorem specDomain_eq_none {mds : List MergedDomain} {host : Bytes} :
    specDomain mds host = none ↔ ∀ md ∈ mds, domainRank md.domain host = ⊥ := by
  simp [specDomain, List.argmax_eq_none, List.filter_eq_nil_iff]

theorem specDomain_eq_some {mds : List MergedDomain} (h : Admissible mds) {host : Bytes}
    {md : MergedDomain} :
    specDomain mds host = some md ↔
      md ∈ mds ∧ domainRank md.domain host ≠ ⊥ ∧
        ∀ md' ∈ mds, domainRank md'.domain host ≤ domainRank md.domain host := by
  constructor
  · intro hs
    obtain ⟨hmem, hle, -⟩ := List.argmax_eq_some_iff.mp hs
    obtain ⟨hmd, hne⟩ := List.mem_filter.mp hmem
    refine ⟨hmd, by simpa using hne, fun md' hmd' => ?_⟩
    by_cases hbot : domainRank md'.domain host = ⊥
    · rw [hbot]
      exact bot_le
    · exact hle md' (List.mem_filter.mpr ⟨hmd', by simpa using hbot⟩)
  · rintro ⟨hmd, hne, hle⟩
    cases hs : specDomain mds host with
    | none => exact absurd (specDomain_eq_none.mp hs md hmd) hne
    | some md' =>
      obtain ⟨hmem, hle', -⟩ := List.argmax_eq_some_iff.mp hs
      obtain ⟨hmd', -⟩ := List.mem_filter.mp hmem
      have heq : domainRank md'.domain host = domainRank md.domain host :=
        le_antisymm (hle md' hmd') (hle' md (List.mem_filter.mpr ⟨hmd, by simpa using hne⟩))
      obtain ⟨ρ, hρ⟩ := WithBot.ne_bot_iff_exists.mp hne
      rw [h.eq_of_rank hmd' hmd (heq.trans hρ.symm) hρ.symm]

/-- The naive scan does not depend on the order of the domains. -/
theorem specDomain_perm {mds mds' : List MergedDomain} (h : Admissible mds)
    (hp : mds'.Perm mds) (host : Bytes) : specDomain mds' host = specDomain mds host := by
  refine Option.ext fun md => ?_
  rw [specDomain_eq_some (h.perm hp), specDomain_eq_some h]
  simp only [hp.mem_iff]

/-! ## The index finds the best domain -/

section
variable [Heap] [Constructors] {fs : FileSystem} {cfg : MergedConfig}

/-- The parts of a domain that compiles. -/
theorem domainAlone_ok {md : MergedDomain} {cd : CompiledDomain}
    (h : domainAlone fs cfg md = .ok cd) :
    compileHosts md.source md.domain.hosts = .ok cd.hosts ∧
      policyAlone fs (domainID md.domain) (domainResolved cfg md.domain) = .ok cd.defaultPolicy ∧
      ∃ crs, routesAlone fs cfg md 0 md.domain.routes = .ok crs ∧ cd.routes = sortRoutes crs := by
  unfold domainAlone at h
  split at h
  next => cases h
  next hosts hhosts =>
    split at h
    next => cases h
    next policy hpolicy =>
      split at h
      next => cases h
      next crs hcrs =>
        obtain rfl := Except.ok.inj h
        exact ⟨hhosts, hpolicy, crs, hcrs, rfl⟩

theorem hostSpecificity_eq {md : MergedDomain} {cd : CompiledDomain} {host : Bytes}
    (h : domainAlone fs cfg md = .ok cd) (ha : isASCII host = true)
    (hv : ∀ h ∈ md.domain.hosts, ValidHost h ∧ h.length < 1048576) :
    cd.hostSpecificity host = scoreBot (domainRank md.domain host) := by
  have hbot : ProperBot ⊥ := fun ρ hρ => absurd hρ WithBot.bot_ne_coe
  have hfold := foldl_bestSpecificity ha md.domain.hosts (domainAlone_ok h).1 hv hbot
  rw [bot_sup_eq] at hfold
  exact hfold

omit [Heap] [Constructors] in
theorem mem_compileHosts {source : Bytes} (hosts : List Bytes) {cs : List Host}
    (hc : compileHosts source hosts = .ok cs) {h : Bytes} (hh : h ∈ hosts) :
    ∃ c ∈ cs, compileHost h = .ok c := by
  induction hosts generalizing cs with
  | nil => cases hh
  | cons k rest ih =>
    unfold compileHosts at hc
    split at hc
    next => cases hc
    next c hk =>
      split at hc
      next => cases hc
      next cs' hcs =>
        obtain rfl := Except.ok.inj hc
        rcases List.mem_cons.mp hh with rfl | hh
        · exact ⟨c, List.mem_cons_self, hk⟩
        · obtain ⟨c', hc', hk'⟩ := ih hcs hh
          exact ⟨c', List.mem_cons_of_mem _ hc', hk'⟩

/-- The index never skips a domain that matches. -/
theorem consulted_of_rank {md : MergedDomain} {cd : CompiledDomain} {host : Bytes} {ρ : Rank}
    (h : domainAlone fs cfg md = .ok cd) (hv : ∀ h ∈ md.domain.hosts, ValidHost h)
    (hr : domainRank md.domain host = ρ) : consulted host md.domain cd := by
  intro hexact
  obtain ⟨k, hk, hkr⟩ := exists_hostRank hr
  obtain ⟨c, hc, hcompile⟩ := mem_compileHosts _ (domainAlone_ok h).1 hk
  exact ⟨k, hk, normalizeHost_of_rank (hv k hk) hcompile (List.all_eq_true.mp hexact c hc) hkr⟩

/-- The scan over the candidates of a host ends at the domain of the naive scan. -/
theorem bestDomain_eq {r : Resolver} (hc : compile fs cfg = .ok r) (hadm : Admissible cfg.domains)
    {host : Bytes} (ha : isASCII host = true) :
    (r.bestDomain host).map Except.ok = (specDomain cfg.domains host).map (domainAlone fs cfg) := by
  have hscan := Lib.foldl_scan (fun cd : CompiledDomain => cd.hostSpecificity host) (-1)
    (r.candidates host)
  have hbest : r.bestDomain host = ((r.candidates host).foldl
    (Lib.scan fun cd : CompiledDomain => cd.hostSpecificity host) (none, -1)).1 := rfl
  generalize (r.candidates host).foldl _ (none, -1) = best at hscan hbest
  rw [hbest]
  have hscore : ∀ md ∈ cfg.domains, ∀ cd, domainAlone fs cfg md = .ok cd →
      cd.hostSpecificity host = scoreBot (domainRank md.domain host) :=
    fun md hmd cd hcd => hostSpecificity_eq hcd ha (hadm.hosts md hmd)
  cases hs : specDomain cfg.domains host with
  | none =>
    cases hb : best.1 with
    | none => rfl
    | some cd =>
      obtain ⟨hmem, hlt, -⟩ := hscan.found cd hb
      obtain ⟨md, hmd, hcd, -⟩ := (mem_candidates hc).mp hmem
      rw [hscore md hmd cd hcd, specDomain_eq_none.mp hs md hmd] at hlt
      exact absurd hlt (lt_irrefl _)
  | some md =>
    obtain ⟨hmd, hne, hmax⟩ := (specDomain_eq_some hadm).mp hs
    obtain ⟨ρ, hρ⟩ := WithBot.ne_bot_iff_exists.mp hne
    obtain ⟨cd, hcd⟩ := compile_domain hc hmd
    have hmem : cd ∈ r.candidates host := (mem_candidates hc).mpr
      ⟨md, hmd, hcd, consulted_of_rank hcd (fun h hh => (hadm.hosts md hmd h hh).1) hρ.symm⟩
    have hle := hscan.le_score cd hmem
    rw [hscore md hmd cd hcd] at hle
    cases hb : best.1 with
    | none =>
      rw [hscan.missed hb, ← hρ] at hle
      have hpos : (0 : Int) ≤ scoreBot ρ := score_nonneg ρ
      omega
    | some cd' =>
      obtain ⟨hmem', -, hbest'⟩ := hscan.found cd' hb
      obtain ⟨md', hmd', hcd', -⟩ := (mem_candidates hc).mp hmem'
      rw [hbest', hscore md' hmd' cd' hcd'] at hle
      have hge : domainRank md.domain host ≤ domainRank md'.domain host :=
        (scoreBot_le_scoreBot (maximum_proper (hadm.hosts md hmd))
          (maximum_proper (hadm.hosts md' hmd'))).mp hle
      have heq : domainRank md'.domain host = ρ := (le_antisymm (hmax md' hmd') hge).trans hρ.symm
      obtain rfl := hadm.eq_of_rank hmd' hmd heq hρ.symm
      simp [hcd']

/-! ## Routes -/

omit [Heap] [Constructors] in
theorem compilePath_ok {m : Match} {path : Path}
    (h : compilePath m.pathExact m.pathPrefix m.pathRegex = .ok path) :
    toLex (path.specificity, path.prefixLen) = pathRank m ∧
      ∀ p, path.match p = acceptsPath m p := by
  unfold compilePath at h
  unfold pathRank acceptsPath
  by_cases hexact : m.pathExact = []
  · by_cases hregex : m.pathRegex = []
    · by_cases hpre : m.pathPrefix = []
      · simp only [hexact, hregex, hpre, ne_eq, not_true_eq_false, if_false] at h ⊢
        obtain rfl := Except.ok.inj h
        exact ⟨rfl, fun p => by cases p <;> rfl⟩
      · simp only [hexact, hregex, hpre, ne_eq, not_true_eq_false, not_false_eq_true, if_true,
          if_false] at h ⊢
        obtain rfl := Except.ok.inj h
        exact ⟨rfl, fun p => rfl⟩
    · simp only [hexact, hregex, ne_eq, not_true_eq_false, not_false_eq_true, if_true,
        if_false] at h ⊢
      cases hre : Library.regexp m.pathRegex with
      | ok re =>
        simp only [hre] at h ⊢
        obtain rfl := Except.ok.inj h
        exact ⟨rfl, fun p => rfl⟩
      | error e =>
        simp only [hre] at h
        cases h
  · simp only [hexact, ne_eq, not_false_eq_true, if_true] at h ⊢
    obtain rfl := Except.ok.inj h
    exact ⟨rfl, fun p => rfl⟩

omit [Heap] [Constructors] in
theorem compileHeader_ok {hm : HeaderMatch} {c : Matcher.Header} (h : compileHeader hm = .ok c)
    (src : List Engine.Header) : c.match src = acceptsHeader hm src := by
  unfold compileHeader at h
  unfold acceptsHeader
  split at h
  next he =>
    obtain rfl := Except.ok.inj h
    simp only [if_pos he, Header.match]
    cases Engine.header src hm.name <;> simp
  next he =>
    simp only [if_neg he]
    split at h
    next hcont =>
      obtain rfl := Except.ok.inj h
      simp only [if_pos hcont, Header.match]
      cases Engine.header src hm.name <;> rfl
    next hcont =>
      simp only [if_neg hcont]
      split at h
      next hregex =>
        simp only [if_pos hregex]
        cases hre : Library.regexp hm.regex with
        | ok re =>
          simp only [hre] at h
          obtain rfl := Except.ok.inj h
          simp only [Header.match]
          cases Engine.header src hm.name <;> rfl
        | error e =>
          simp only [hre] at h
          cases h
      next hregex =>
        obtain rfl := Except.ok.inj h
        simp only [if_neg hregex, Header.match]

omit [Heap] [Constructors] in
theorem compileHeaders_ok (hms : List HeaderMatch) {cs : List Matcher.Header}
    (h : compileHeaders hms = .ok cs) (src : List Engine.Header) :
    matchAll cs src = hms.all fun hm => acceptsHeader hm src := by
  induction hms generalizing cs with
  | nil =>
    obtain rfl := Except.ok.inj h
    rfl
  | cons hm hms ih =>
    rw [compileHeaders, List.mapM_cons] at h
    obtain ⟨c, hc, h⟩ := Lib.bind_eq_ok h
    obtain ⟨cs', hcs, h⟩ := Lib.bind_eq_ok h
    obtain rfl := Except.ok.inj h
    have htail : matchAll cs' src = _ := ih hcs
    rw [matchAll, List.all_cons, List.all_cons, compileHeader_ok hc, ← htail, matchAll]

/-- What a compiled route is, in terms of the route it was compiled from. -/
structure RouteOf (fs : FileSystem) (cfg : MergedConfig) (d : Domain) (inp : Input)
    (p : Route × Nat) (cr : CompiledRoute) : Prop where
  matches_eq : cr.matches inp = accepts p.1.match inp
  rank_eq : pathRank p.1.match = toLex (cr.path.specificity, cr.path.prefixLen)
  policy_eq : policyAlone fs (routeID d p.2) (routeResolved cfg d p.1) = .ok cr.policy

theorem routeAlone_ok {d : Domain} {ri : Nat} {rt : Route} {cr : CompiledRoute}
    (h : routeAlone fs cfg d ri rt = .ok cr) (inp : Input) : RouteOf fs cfg d inp (rt, ri) cr := by
  unfold routeAlone at h
  obtain ⟨path, hpath, h⟩ := Lib.bind_eq_ok h
  obtain ⟨headers, hheaders, h⟩ := Lib.bind_eq_ok h
  obtain ⟨policy, hpolicy, h⟩ := Lib.bind_eq_ok h
  obtain rfl := Except.ok.inj h
  obtain ⟨hrank, haccepts⟩ := compilePath_ok hpath
  refine ⟨?_, hrank.symm, hpolicy⟩
  simp only [CompiledRoute.matches, accepts, haccepts, compileHeaders_ok _ hheaders]

theorem routesAlone_ok {md : MergedDomain} (inp : Input) (routes : List Route) {ri : Nat}
    {crs : List CompiledRoute} (h : routesAlone fs cfg md ri routes = .ok crs) :
    List.Forall₂ (RouteOf fs cfg md.domain inp) (routes.zipIdx ri) crs := by
  induction routes generalizing ri crs with
  | nil =>
    obtain rfl := Except.ok.inj h
    exact .nil
  | cons rt rest ih =>
    unfold routesAlone at h
    split at h
    next => cases h
    next cr hcr =>
      split at h
      next => cases h
      next crs' hcrs =>
        obtain rfl := Except.ok.inj h
        exact .cons (routeAlone_ok hcr inp) (ih hcrs)

omit [Library] [Heap] [Constructors] in
theorem routeBefore_iff (a b : CompiledRoute) :
    routeBefore a b ↔
      (toLex (b.path.specificity, b.path.prefixLen) : Rank) ≤
        toLex (a.path.specificity, a.path.prefixLen) := by
  rw [Prod.Lex.toLex_le_toLex, routeBefore]
  constructor
  · rintro (h | ⟨h, hle⟩)
    · exact .inl h
    · exact .inr ⟨h.symm, hle⟩
  · rintro (h | ⟨h, hle⟩)
    · exact .inl h
    · exact .inr ⟨h.symm, hle⟩

/-- The policy of a domain: that of the best accepting route, else the default. -/
theorem policyFor_eq {md : MergedDomain} {cd : CompiledDomain}
    (h : domainAlone fs cfg md = .ok cd) (inp : Input) :
    specPolicy fs cfg md.domain inp = .ok (cd.policyFor inp) := by
  obtain ⟨-, hdefault, crs, hcrs, hroutes⟩ := domainAlone_ok h
  have hrelated := routesAlone_ok inp md.domain.routes hcrs
  have hfiltered : List.Forall₂ (RouteOf fs cfg md.domain inp)
      (md.domain.routes.zipIdx.filter fun p => accepts p.1.match inp)
      (crs.filter fun cr => cr.matches inp) :=
    List.rel_filter (fun p cr hpr => by simp only [hpr.matches_eq]) hrelated
  have hbest : Option.Rel (RouteOf fs cfg md.domain inp) (specRoute md.domain inp)
      ((sortRoutes crs).find? fun rt => rt.matches inp) := by
    rw [sortRoutes, Lib.find?_insertionSort routeBefore_iff]
    exact Lib.argmax_related (fun p cr hpr => hpr.rank_eq) hfiltered
  rw [CompiledDomain.policyFor, hroutes, specPolicy]
  generalize specRoute md.domain inp = best, (sortRoutes crs).find? _ = best' at hbest ⊢
  cases hbest with
  | none => exact hdefault
  | some hpr => exact hpr.policy_eq

theorem resolve_eq {r : Resolver} (hc : compile fs cfg = .ok r) (hadm : Admissible cfg.domains)
    {inp : Input} (ha : isASCII inp.host = true) :
    (r.resolve inp).map Except.ok = specResolve fs cfg inp := by
  have hbest := bestDomain_eq hc hadm ha
  rw [Resolver.resolve, specResolve]
  cases hs : specDomain cfg.domains inp.host with
  | none =>
    rw [hs] at hbest
    rw [Option.map_eq_none_iff.mp hbest]
    rfl
  | some md =>
    rw [hs] at hbest
    obtain ⟨cd, hcd, heq⟩ := Option.map_eq_some_iff.mp hbest
    rw [hcd, Option.map_some, Option.map_some, Option.map_some, policyFor_eq heq.symm]

theorem routesAlone_domains (mds : List MergedDomain) (md : MergedDomain) (routes : List Route)
    (ri : Nat) :
    routesAlone fs { cfg with domains := mds } md ri routes = routesAlone fs cfg md ri routes := by
  induction routes generalizing ri with
  | nil => rfl
  | cons rt rest ih =>
    simp only [routesAlone, ih]
    rfl

/-- What a domain compiles to does not depend on the other domains. -/
theorem domainAlone_domains (mds : List MergedDomain) (md : MergedDomain) :
    domainAlone fs { cfg with domains := mds } md = domainAlone fs cfg md := by
  simp only [domainAlone, routesAlone_domains]
  rfl

theorem compile_perm {r : Resolver} (hc : compile fs cfg = .ok r) {mds : List MergedDomain}
    (hp : mds.Perm cfg.domains) : ∃ r', compile fs { cfg with domains := mds } = .ok r' :=
  compileDomains_of_all mds _ (EngineCache.sound_nil fs) fun md hmd => by
    rw [domainAlone_domains]
    exact compile_domain hc (hp.mem_iff.mp hmd)

/-- A resolver compiled from a valid config answers as the naive scan does, whatever the
order of the domains. -/
theorem resolve_precedence {r : Resolver} (hv : Validated cfg)
    (hlen : ∀ md ∈ cfg.domains, ∀ h ∈ md.domain.hosts, h.length < 2 ^ 20)
    (hc : compile fs cfg = .ok r) :
    (∀ inp : Input, isASCII inp.host = true →
      (r.resolve inp).map Except.ok = specResolve fs cfg inp ∧
      (r.resolve inp = none ↔
        ∀ md ∈ cfg.domains, ∀ h ∈ md.domain.hosts, hostRank h inp.host = none)) ∧
    ∀ mds, mds.Perm cfg.domains →
      ∃ r', compile fs { cfg with domains := mds } = .ok r' ∧
        ∀ inp : Input, isASCII inp.host = true → r'.resolve inp = r.resolve inp := by
  have hadm : Admissible cfg.domains :=
    ⟨fun md hmd h hh => ⟨(hv.domain hmd).hosts h hh, hlen md hmd h hh⟩, hv.hostKeys_nodup⟩
  refine ⟨fun inp ha => ⟨resolve_eq hc hadm ha, ?_⟩, fun mds hp => ?_⟩
  · have heq := resolve_eq hc hadm ha
    rw [← Option.map_eq_none_iff (f := (Except.ok : CompiledPolicy → Except Err CompiledPolicy)), heq,
      specResolve, Option.map_eq_none_iff, specDomain_eq_none]
    exact forall₂_congr fun md _ => domainRank_eq_bot
  · obtain ⟨r', hc'⟩ := compile_perm hc hp
    refine ⟨r', hc', fun inp ha => ?_⟩
    have heq := resolve_eq hc hadm ha
    have heq' := resolve_eq hc' (hadm.perm hp) ha
    have hsame : specResolve fs { cfg with domains := mds } inp = specResolve fs cfg inp := by
      rw [specResolve, specResolve, specDomain_perm hadm hp]
      rfl
    exact Option.map_injective (fun _ _ h => Except.ok.inj h) (heq'.trans (hsame.trans heq.symm))

end

end

/-- A wildcard domain that detects, and an exact one that blocks below one path only. -/
def shopFile : ParsedFile where
  name := ascii "shop.yaml"
  file :=
    { apiVersion := apiVersionV1
      kind := kindSecurityPolicy
      spec :=
        { domains :=
            [{ hosts := [ascii "*.shop.test"], policy := { mode := some .detect } },
              { hosts := [ascii "API.shop.test"]
                policy := { mode := some .shadow }
                routes := [{ «match» := { pathPrefix := ascii "/pay" }
                             policy := { mode := some .block } }] }] } }

def shopInput (host path : Bytes) : Input where
  host := host
  path := path
  method := ascii "GET"
  contentType := []
  headers := []

theorem shop_precedence :
    let _ := Library.nothing
    let _ := Heap.empty
    let _ := Constructors.nothing
    let cfg := merge [shopFile]
    let fs : FileSystem := fun _ => none
    ∃ r, compile fs cfg = .ok r ∧
      (∀ inp : Input, isASCII inp.host = true →
        (r.resolve inp).map Except.ok = specResolve fs cfg inp) ∧
      (r.resolve (shopInput (ascii "api.shop.test:443") (ascii "/pay/1"))).map (·.mode) =
        some .block ∧
      (r.resolve (shopInput (ascii "www.shop.test") (ascii "/pay/1"))).map (·.mode) =
        some .detect ∧
      r.resolve (shopInput (ascii "shop.test") (ascii "/pay/1")) = none := by
  intro lib heap constructors cfg fs
  obtain ⟨r, hr⟩ : ∃ r, compile fs cfg = .ok r := ⟨_, rfl⟩
  have hv : Validated cfg := ⟨[shopFile], by decide +kernel, rfl, by decide +kernel⟩
  have hprec := resolve_precedence hv (by decide +kernel) hr
  refine ⟨r, hr, fun inp ha => (hprec.1 inp ha).1, ?_, ?_, ?_⟩
  · obtain rfl := Except.ok.inj hr
    decide +kernel
  · obtain rfl := Except.ok.inj hr
    decide +kernel
  · exact (hprec.1 _ (by decide +kernel)).2.mpr (by decide +kernel)

end ElchiShield.Policy
