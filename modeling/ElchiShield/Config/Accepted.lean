import ElchiShield.Config.Load

/-! # Configs that pass validation

What validation establishes for the parts of a merged config, wherever in the directory
they were written. -/
namespace ElchiShield.Config
open ElchiShield.Go

theorem checkEach_eq_nil {α : Type} {field : Bytes} {xs : List α} {f : Bytes → α → Problems}
    (h : checkEach field xs f = []) {x : α} (hx : x ∈ xs) : ∃ p, f p x = [] := by
  obtain ⟨i, hi⟩ := List.mem_iff_getElem?.mp hx
  exact ⟨_, List.flatMap_eq_nil_iff.mp h (x, i) (List.mem_zipIdx_iff_getElem?.mpr hi)⟩

theorem lookup_eq_none {seen : List (Bytes × Bytes)} {k : Bytes} (h : seen.lookup k = none) :
    k ∉ seen.map Prod.fst := by
  intro hk
  obtain ⟨e, he, rfl⟩ := List.mem_map.mp hk
  simpa using List.lookup_eq_none_iff.mp h e he

/-! ## Merged domains -/

theorem foldl_mergeFile_domains (files : List ParsedFile) (out : MergedConfig) :
    (files.foldl mergeFile out).domains =
      out.domains ++ files.flatMap fun pf => pf.file.spec.domains.map fun d => ⟨d, pf.name⟩ := by
  induction files generalizing out with
  | nil => simp
  | cons pf files ih => simp [ih, mergeFile]

theorem mem_merge_domains {files : List ParsedFile} {md : MergedDomain} :
    md ∈ (merge files).domains ↔
      ∃ pf ∈ files, md.source = pf.name ∧ md.domain ∈ pf.file.spec.domains := by
  simp only [merge, foldl_mergeFile_domains, List.nil_append, List.mem_flatMap, List.mem_map,
    (List.perm_insertionSort _ files).mem_iff]
  constructor
  · rintro ⟨pf, hpf, d, hd, rfl⟩
    exact ⟨pf, hpf, rfl, hd⟩
  · rintro ⟨pf, hpf, hs, hd⟩
    exact ⟨pf, hpf, md.domain, hd, by rw [← hs]⟩

/-! ## Domains and policies -/

/-- The host form validation lets through. -/
def ValidHost (h : Bytes) : Prop := h = star ∨ hostRe h = true

theorem validateHosts_eq_nil {file dp : Bytes} {hosts : List Bytes}
    (h : validateHosts file dp hosts = []) : ∀ h ∈ hosts, ValidHost h := by
  intro host hmem
  obtain ⟨-, hall⟩ := List.append_eq_nil_iff.mp (List.map_eq_nil_iff.mp h)
  obtain ⟨p, hp⟩ := checkEach_eq_nil hall hmem
  by_cases hs : host = star
  · exact .inl hs
  · exact .inr (by simpa [hs] using hp)

variable [Library] [Heap]

/-- Files that pass validation, alone and merged. -/
def Validated (cfg : MergedConfig) : Prop :=
  ∃ files, (∀ pf ∈ files, validateFile pf.name pf.file = []) ∧ cfg = merge files ∧
    validateMerged cfg = []

/-- What holds of a domain in which validation found nothing. -/
structure ValidDomain (d : Domain) : Prop where
  hosts : ∀ h ∈ d.hosts, ValidHost h
  policy : policyProblems d.policy = []
  routes : ∀ rt ∈ d.routes, policyProblems rt.policy = []

theorem validateRoutes_eq_nil {file dp : Bytes} (routes : List Route) {i : Nat}
    {sigs : List (Bytes × Nat)} (h : validateRoutes file dp i sigs routes = []) :
    ∀ rt ∈ routes, policyProblems rt.policy = [] := by
  induction routes generalizing i sigs with
  | nil => simp
  | cons r rest ih =>
    unfold validateRoutes at h
    obtain ⟨hspec, hrest⟩ := List.append_eq_nil_iff.mp h
    have hr : policyProblems r.policy = [] :=
      located_eq_nil.mp (List.append_eq_nil_iff.mp hspec).2
    split at hrest
    next => cases hrest
    next =>
      intro rt hrt
      rcases List.mem_cons.mp hrt with rfl | hrt
      · exact hr
      · exact ih hrest rt hrt

theorem validateDomain_eq_nil {file dp : Bytes} {d : Domain}
    (h : validateDomain file dp d = []) : ValidDomain d := by
  obtain ⟨h, hroutes⟩ := List.append_eq_nil_iff.mp h
  obtain ⟨hhosts, hpolicy⟩ := List.append_eq_nil_iff.mp h
  exact ⟨validateHosts_eq_nil hhosts, located_eq_nil.mp hpolicy, validateRoutes_eq_nil _ hroutes⟩

theorem validateFile_defaults {file : Bytes} {f : File} (h : validateFile file f = []) :
    policyProblems f.spec.defaults = [] := by
  obtain ⟨h, -⟩ := List.append_eq_nil_iff.mp h
  obtain ⟨h, -⟩ := List.append_eq_nil_iff.mp h
  exact located_eq_nil.mp (List.append_eq_nil_iff.mp h).2

theorem validateFile_domain {file : Bytes} {f : File} (h : validateFile file f = []) {d : Domain}
    (hd : d ∈ f.spec.domains) : ∃ dp, validateDomain file dp d = [] := by
  obtain ⟨i, hi⟩ := List.mem_iff_getElem?.mp hd
  obtain ⟨-, hall⟩ := List.append_eq_nil_iff.mp h
  exact ⟨_, List.flatMap_eq_nil_iff.mp hall (d, i) (List.mem_zipIdx_iff_getElem?.mpr hi)⟩

theorem Validated.validateDomain {cfg : MergedConfig} (h : Validated cfg) {md : MergedDomain}
    (hmd : md ∈ cfg.domains) : ∃ file dp, validateDomain file dp md.domain = [] := by
  obtain ⟨files, hfiles, rfl, -⟩ := h
  obtain ⟨pf, hpf, -, hd⟩ := mem_merge_domains.mp hmd
  exact ⟨pf.name, validateFile_domain (hfiles pf hpf) hd⟩

theorem Validated.domain {cfg : MergedConfig} (h : Validated cfg) {md : MergedDomain}
    (hmd : md ∈ cfg.domains) : ValidDomain md.domain := by
  obtain ⟨file, dp, hmd⟩ := h.validateDomain hmd
  exact validateDomain_eq_nil hmd

theorem Validated.hosts_ne_nil {cfg : MergedConfig} (h : Validated cfg) {md : MergedDomain}
    (hmd : md ∈ cfg.domains) : md.domain.hosts ≠ [] := by
  obtain ⟨file, dp, hmd⟩ := h.validateDomain hmd
  obtain ⟨hmd, -⟩ := List.append_eq_nil_iff.mp hmd
  obtain ⟨hhosts, -⟩ := List.append_eq_nil_iff.mp hmd
  obtain ⟨hsome, -⟩ := List.append_eq_nil_iff.mp (List.map_eq_nil_iff.mp hhosts)
  simpa [check] using hsome

/-! ## Hosts are unique -/

/-- The keys of all hosts of a list of domains. -/
def hostKeys (mds : List MergedDomain) : List Bytes :=
  mds.flatMap fun md => md.domain.hosts.map hostKey

omit [Heap] in
/-- A run of the inner loop that finds nothing: the hosts are new and distinct, and they are
what has been added to the hosts seen. -/
theorem validateMergedHosts_nil {source : Bytes} {i : Nat} (hosts : List Bytes)
    {seen seen' : List (Bytes × Bytes)}
    (h : validateMergedHosts source i seen hosts = ([], seen'))
    (hnd : (seen.map Prod.fst).Nodup) :
    (seen'.map Prod.fst).Nodup ∧
      (seen'.map Prod.fst).Perm (seen.map Prod.fst ++ hosts.map hostKey) := by
  induction hosts generalizing seen with
  | nil =>
    obtain ⟨-, rfl⟩ := Prod.mk.inj h
    exact ⟨hnd, by simp⟩
  | cons host rest ih =>
    unfold validateMergedHosts at h
    split at h
    next => cases (Prod.mk.inj h).1
    next hl =>
      obtain ⟨hnd', hperm⟩ := ih h (List.nodup_cons.mpr ⟨lookup_eq_none hl, hnd⟩)
      refine ⟨hnd', hperm.trans ?_⟩
      simpa using List.perm_middle.symm

omit [Heap] in
theorem validateMergedLoop_nil (mds : List MergedDomain) {i : Nat}
    {seen : List (Bytes × Bytes)} (h : validateMergedLoop i seen mds = [])
    (hnd : (seen.map Prod.fst).Nodup) : (seen.map Prod.fst ++ hostKeys mds).Nodup := by
  induction mds generalizing i seen with
  | nil => simpa [hostKeys] using hnd
  | cons md rest ih =>
    obtain ⟨herrs, hrest⟩ := List.append_eq_nil_iff.mp h
    obtain ⟨hnd', hperm⟩ := validateMergedHosts_nil md.domain.hosts (Prod.ext herrs rfl) hnd
    have hkeys : hostKeys (md :: rest) = md.domain.hosts.map hostKey ++ hostKeys rest := rfl
    rw [hkeys, ← List.append_assoc]
    exact (hperm.append_right _).nodup_iff.mp (ih hrest hnd')

theorem Validated.hostKeys_nodup {cfg : MergedConfig} (h : Validated cfg) :
    (hostKeys cfg.domains).Nodup := by
  obtain ⟨files, -, rfl, hm⟩ := h
  simpa using validateMergedLoop_nil _ hm (by simp)

end ElchiShield.Config
