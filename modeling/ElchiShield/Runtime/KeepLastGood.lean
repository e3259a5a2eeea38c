import ElchiShield.Config.Accepted
import ElchiShield.Lib.Runs
import ElchiShield.Runtime.Reloader

/-! # Keep the last good snapshot

A reload that is not applied leaves the store alone, and a snapshot that is replaced is
retired once. The snapshot that replaces another one has files, unless every listed file
vanished before it was read: then the directory reads as one with no files, and an empty
config is applied. -/
namespace ElchiShield.Runtime
open ElchiShield.Go ElchiShield.Config ElchiShield.Policy ElchiShield.Lib

/-! ## Files that vanish -/

/-- Config files were listed, and none of them was there to be read. -/
def allVanished [Library] (dir : Bytes) (view : DirView) : Prop :=
  ∃ entries, view.list = .ok entries ∧ configNames dir entries ≠ [] ∧
    ∀ name ∈ configNames dir entries, view.read name = .notExist

theorem foldl_mergeFile_sources (files : List ParsedFile) (out : MergedConfig) :
    (files.foldl mergeFile out).sources = out.sources ++ files.map ParsedFile.name := by
  induction files generalizing out with
  | nil => simp
  | cons pf files ih => simp [ih, mergeFile]

theorem merge_sources_eq_nil {files : List ParsedFile} : (merge files).sources = [] ↔ files = [] := by
  rw [merge, foldl_mergeFile_sources, List.nil_append, List.map_eq_nil_iff,
    ← List.length_eq_zero_iff, (List.perm_insertionSort _ files).length_eq,
    List.length_eq_zero_iff]

section
variable [Library] [Heap] [Decoder]

omit [Heap] in
theorem readFiles_nil {read : Bytes → Access Bytes} (names : List Bytes)
    (h : readFiles read names = ([], [])) : ∀ name ∈ names, read name = .notExist := by
  induction names with
  | nil => simp
  | cons name rest ih =>
    unfold readFiles at h
    dsimp only at h
    split at h
    next hread =>
      intro n hn
      rcases List.mem_cons.mp hn with rfl | hn
      · exact hread
      · exact ih h n hn
    next => cases (Prod.mk.inj h).2
    next =>
      split at h
      next => cases (Prod.mk.inj h).2
      next => cases (Prod.mk.inj h).1

/-- A config without files is loaded only when all of them vanished. -/
theorem load_sources {dir : Bytes} {view : DirView} {cfg : MergedConfig}
    (h : load dir view = .ok cfg) (hv : ¬ allVanished dir view) : cfg.sources ≠ [] := by
  unfold load at h
  split at h
  next => cases h
  next parsed hparsed =>
    dsimp only at h
    split at h
    next =>
      obtain rfl := Except.ok.inj h
      intro hsources
      obtain rfl := merge_sources_eq_nil.mp hsources
      unfold readDir at hparsed
      split at hparsed
      next => cases hparsed
      next => cases hparsed
      next entries hlist =>
        dsimp only at hparsed
        split at hparsed
        next => cases hparsed
        next hne =>
          split at hparsed
          next herrs =>
            have hread : readFiles view.read (configNames dir entries) = ([], []) :=
              Prod.ext (Except.ok.inj hparsed) herrs
            exact hv ⟨entries, hlist, hne, readFiles_nil _ hread⟩
          next => cases hparsed
    next => cases h

end

/-! ## Reloads -/

section
variable [Library] [Heap] [Decoder] [Constructors] [Hasher]

/-- A snapshot that is put in the place of a non-empty one has files. -/
def KeptLastGood (e : Event Store Disk Reloaded) : Prop :=
  e.output.outcome = .applied → e.before.active.isEmpty = false → e.after.active.sources ≠ []

/-- A reload that is not applied changes and retires nothing. -/
def Untouched (e : Event Store Disk Reloaded) : Prop :=
  e.output.outcome ≠ .applied → e.after = e.before ∧ e.output.retired = []

/-- The non-empty snapshots a run replaces, in order. -/
def replaced (es : List (Event Store Disk Reloaded)) : List Snapshot :=
  (es.filter fun e => e.output.outcome = .applied && !e.before.active.isEmpty).map fun e =>
    e.before.active

theorem reload_kept {r : Reloader} {store : Store} {disk : Disk}
    (hv : ¬ allVanished r.dir disk.dir) : KeptLastGood (event (reload r) store disk) := by
  obtain ⟨⟨res, store'⟩, h⟩ : ∃ p, reload r store disk = p := ⟨_, rfl⟩
  rw [event, h]
  intro happ _
  obtain ⟨hne, -⟩ | ⟨cfg, hload, hsnap, -⟩ := reload_cases h
  · exact absurd happ hne
  · show store'.active.sources ≠ []
    rw [(newSnapshot_ok hsnap).2.1]
    exact load_sources hload hv

theorem reload_untouched (r : Reloader) (store : Store) (disk : Disk) :
    Untouched (event (reload r) store disk) := by
  obtain ⟨⟨res, store'⟩, h⟩ : ∃ p, reload r store disk = p := ⟨_, rfl⟩
  rw [event, h]
  intro hne
  obtain ⟨-, hstore, hretired, -⟩ | ⟨cfg, -, -, happ, -⟩ := reload_cases h
  · exact ⟨hstore, hretired⟩
  · exact absurd happ hne

theorem reload_retired {r : Reloader} (hr : r.retire = true) (store : Store) (disk : Disk) :
    (event (reload r) store disk).output.retired = replaced [event (reload r) store disk] := by
  obtain ⟨⟨res, store'⟩, h⟩ : ∃ p, reload r store disk = p := ⟨_, rfl⟩
  rw [event, h]
  obtain ⟨hne, -, hretired, -⟩ | ⟨cfg, -, -, happ, hretired⟩ := reload_cases h
  · simp [replaced, hne, hretired]
  · cases hempty : store.active.isEmpty <;> simp [replaced, happ, hretired, hr, hempty]

theorem retired_eq_replaced {r : Reloader} (hr : r.retire = true) (disks : List Disk)
    (store : Store) :
    ((trace (reload r) store disks).flatMap fun e => e.output.retired) =
      replaced (trace (reload r) store disks) := by
  induction disks generalizing store with
  | nil => rfl
  | cons disk disks ih =>
    have hsplit : replaced (event (reload r) store disk ::
        trace (reload r) (reload r store disk).2 disks) =
          replaced [event (reload r) store disk] ++
            replaced (trace (reload r) (reload r store disk).2 disks) := by
      rw [replaced, ← List.singleton_append, List.filter_append, List.map_append]
      rfl
    rw [trace, List.flatMap_cons, ih, hsplit, reload_retired hr]

/-- In every run, what is not applied changes nothing, and the retire callback gets each
non-empty snapshot that is replaced, once. Where no reload finds all its files gone, no reload
puts a snapshot without files in the place of another one. -/
theorem reloads_keep_last_good (r : Reloader) (store : Store) (disks : List Disk) :
    ((∀ e ∈ trace (reload r) store disks, ¬ allVanished r.dir e.input.dir) →
      ∀ e ∈ trace (reload r) store disks, KeptLastGood e) ∧
    (∀ e ∈ trace (reload r) store disks, Untouched e) ∧
    (r.retire = true → ((trace (reload r) store disks).flatMap fun e => e.output.retired) =
      replaced (trace (reload r) store disks)) := by
  refine ⟨fun hv => ?_, ?_, fun hr => retired_eq_replaced hr disks store⟩
  · exact trace_invariant (C := fun e => ¬ allVanished r.dir e.input.dir) (I := fun _ => True)
      (fun _ _ _ hc => ⟨reload_kept hc, trivial⟩) trivial hv
  · exact trace_invariant (C := fun _ => True) (I := fun _ => True)
      (fun store disk _ _ => ⟨reload_untouched r store disk, trivial⟩) trivial fun _ _ => trivial

end

/-! ## A directory whose only file vanishes -/

def blockAllFile : File where
  apiVersion := apiVersionV1
  kind := kindSecurityPolicy
  spec := { domains := [{ hosts := [star] }] }

def blockAllText : Bytes :=
  ascii "apiVersion: sentinel.elchi.io/v1\nkind: SecurityPolicy\nspec:\n  domains:\n" ++
  ascii "    - hosts: [\"*\"]\n"

/-- A decoder that knows one text. -/
@[reducible] def blockAllDecoder : Decoder where
  json _ := .error []
  yaml data := if data = blockAllText then .ok blockAllFile else .error []

/-- Sums that tell configs by the number of their files. -/
@[reducible] def countingHasher : Hasher where
  sum c := .ok (List.replicate 32 (UInt8.ofNat c.sources.length))
  sum_length _ b h := by
    obtain rfl := Except.ok.inj h
    exact List.length_replicate

def oneFile (read : Access Bytes) : Disk where
  dir := { list := .ok [⟨ascii "policy.yaml", false⟩], read := fun _ => read }
  files := fun _ => none

def noFiles : Disk where
  dir := { list := .ok [], read := fun _ => .notExist }
  files := fun _ => none

theorem emptied_directory_is_kept :
    let _ := Library.nothing
    let _ := Heap.empty
    let _ := blockAllDecoder
    let _ := Constructors.nothing
    let _ := countingHasher
    let r : Reloader := ⟨ascii "/conf", true⟩
    let es := trace (reload r) newStore [oneFile (.ok blockAllText), noFiles]
    (∀ e ∈ es, KeptLastGood e) ∧ es.map (fun e => e.output.outcome) = [.applied, .empty] := by
  intro lib heap decoder constructors hasher r es
  refine ⟨(reloads_keep_last_good r newStore _).1 ?_, by decide +kernel⟩
  intro e he
  rcases List.mem_cons.mp he with rfl | he
  · rintro ⟨entries, hlist, hne, hall⟩
    obtain rfl := Access.ok.inj hlist
    obtain ⟨name, hname⟩ := List.exists_mem_of_ne_nil _ hne
    cases hall name hname
  · obtain rfl := List.mem_singleton.mp he
    rintro ⟨entries, hlist, hne, -⟩
    obtain rfl := Access.ok.inj hlist
    exact hne rfl

/-- The file is read once; at the next reload it is still listed but gone, and the
snapshot that blocks is replaced by one made of nothing. -/
theorem vanished_file_is_applied :
    let _ := Library.nothing
    let _ := Heap.empty
    let _ := blockAllDecoder
    let _ := Constructors.nothing
    let _ := countingHasher
    let r : Reloader := ⟨ascii "/conf", true⟩
    let es := trace (reload r) newStore [oneFile (.ok blockAllText), oneFile .notExist]
    es.map (fun e => (e.output.outcome, e.before.active.isEmpty, e.after.active.sources)) =
      [(.applied, true, [ascii "/conf/policy.yaml"]), (.applied, false, [])] := by
  decide +kernel

end ElchiShield.Runtime
