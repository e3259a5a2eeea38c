import ElchiShield.Config.Accepted
import ElchiShield.Policy.Allocation

/-! # Closing a resolver

`Resolver.Close` walks the index it was compiled into and closes each engine set it meets for
the first time. -/
namespace ElchiShield.Policy
open ElchiShield.Go ElchiShield.Lib ElchiShield.Config ElchiShield.Engine ElchiShield.Matcher

/-- What the `Close` of each engine returns, after the calls made so far: no error, or the text
of one. -/
abbrev Closer := List Nat → Nat → Option Bytes

/-- `errors.Join`, on the texts of the errors. -/
def errorsJoin (errs : List Bytes) : Option Bytes :=
  if errs.isEmpty then none else some (join (ascii "\n") errs)

/-- `Set.Close`: its error, and the calls with those it has made. -/
def SetRef.close (closer : Closer) (calls : List Nat) (p : SetRef) : Option Bytes × List Nat :=
  let r := p.engines.foldl
    (fun r e => (r.1 ++ (closer r.2 e.2).toList, r.2 ++ [e.2])) (([] : List Bytes), calls)
  (errorsJoin r.1, r.2)

/-- The variables of `Resolver.Close`, and the calls it has made. -/
structure Closing where
  seen : List Nat := []
  errs : List Bytes := []
  calls : List Nat := []

def closeP (closer : Closer) (c : Closing) (engines : Option SetRef) : Closing :=
  match engines with
  | none => c
  | some p =>
    if p.addr ∈ c.seen then c
    else
      let r := p.close closer c.calls
      { seen := c.seen ++ [p.addr], errs := c.errs ++ r.1.toList, calls := r.2 }

def closeDomain (closer : Closer) (c : Closing) (cd : DomainRef) : Closing :=
  cd.routes.foldl (fun c rt => closeP closer c rt.engines)
    (closeP closer c cd.defaultPolicy.engines)

def ResolverRef.exactDomains (r : ResolverRef) (key : Bytes) : List DomainRef :=
  r.exact.filterMap fun e => if e.1 = key then some e.2 else none

/-- `Resolver.Close`, where the map `exact` is ranged over in this order of its keys. -/
def ResolverRef.close (closer : Closer) (keys : List Bytes) (r : ResolverRef) :
    Option Bytes × List Nat :=
  let c := keys.foldl (fun c key => (r.exactDomains key).foldl (closeDomain closer) c) {}
  let c := r.wildcard.foldl (closeDomain closer) c
  (errorsJoin c.errs, c.calls)

/-- An order in which a range over the map `exact` may go. -/
structure KeyOrder (r : ResolverRef) (keys : List Bytes) : Prop where
  nodup : keys.Nodup
  mem : ∀ key, key ∈ keys ↔ key ∈ r.exact.map Prod.fst

/-! ## The sets in the order they are met -/

def SetRef.positions (p : SetRef) : List Nat := p.engines.map Prod.snd

theorem SetRef.close_calls (closer : Closer) (calls : List Nat) (p : SetRef) :
    (p.close closer calls).2 = calls ++ p.positions := by
  have hloop : ∀ (es : List (SecurityEngine × Nat)) (r : List Bytes × List Nat),
      (es.foldl (fun r e => (r.1 ++ (closer r.2 e.2).toList, r.2 ++ [e.2])) r).2 =
        r.2 ++ es.map Prod.snd := by
    intro es
    induction es with
    | nil => simp
    | cons e es ih =>
      intro r
      rw [List.foldl_cons, ih, List.map_cons, List.append_assoc]
      rfl
  exact hloop p.engines ([], calls)

def closeSet (closer : Closer) (c : Closing) (p : SetRef) : Closing := closeP closer c (some p)

theorem closeP_eq (closer : Closer) (c : Closing) (engines : Option SetRef) :
    closeP closer c engines = engines.toList.foldl (closeSet closer) c := by
  cases engines <;> rfl

theorem closeDomain_eq (closer : Closer) (c : Closing) (cd : DomainRef) :
    closeDomain closer c cd = cd.refs.foldl (closeSet closer) c := by
  simp only [closeDomain, DomainRef.refs, closeP_eq, List.foldl_append, List.foldl_flatMap]

/-- The domains in the order of the loops. -/
def ResolverRef.walk (r : ResolverRef) (keys : List Bytes) : List DomainRef :=
  keys.flatMap r.exactDomains ++ r.wildcard

theorem close_calls_eq (closer : Closer) (keys : List Bytes) (r : ResolverRef) :
    (r.close closer keys).2 =
      (((r.walk keys).flatMap DomainRef.refs).foldl (closeSet closer) {}).calls := by
  have hdomain : closeDomain closer = fun c cd => cd.refs.foldl (closeSet closer) c := by
    funext c cd
    exact closeDomain_eq closer c cd
  simp only [ResolverRef.close, ResolverRef.walk, hdomain, List.flatMap_append, List.foldl_append,
    List.foldl_flatMap]

theorem KeyOrder.mem_walk {r : ResolverRef} {keys : List Bytes} (h : KeyOrder r keys)
    (cd : DomainRef) : cd ∈ r.walk keys ↔ cd ∈ r.domains := by
  rw [ResolverRef.walk, ResolverRef.domains, List.mem_append, List.mem_append]
  refine or_congr ?_ Iff.rfl
  simp only [List.mem_flatMap, List.mem_map, ResolverRef.exactDomains, List.mem_filterMap,
    Option.ite_none_right_eq_some, Option.some.injEq]
  constructor
  · rintro ⟨key, -, e, he, -, rfl⟩
    exact ⟨e, he, rfl⟩
  · rintro ⟨e, he, rfl⟩
    exact ⟨e.1, (h.mem e.1).mpr (List.mem_map_of_mem he), e, he, rfl, rfl⟩

/-! ## Each set once -/

/-- `done` are the sets closed so far. -/
structure Closed (done : List SetRef) (c : Closing) : Prop where
  seen : c.seen = done.map SetRef.addr
  nodup : (done.map SetRef.addr).Nodup
  calls : c.calls = done.flatMap SetRef.positions

/-- A set is closed, unless one at its address has been. -/
theorem closeSet_closed (closer : Closer) {done : List SetRef} {c : Closing} (h : Closed done c)
    (p : SetRef) : ∃ done', Closed done' (closeSet closer c p) ∧ done ⊆ done' ∧
      done' ⊆ p :: done ∧ p.addr ∈ done'.map SetRef.addr := by
  unfold closeSet closeP
  dsimp only
  split
  next hseen =>
    rw [h.seen] at hseen
    exact ⟨done, h, List.Subset.refl _, List.subset_cons_self _ _, hseen⟩
  next hnew =>
    rw [h.seen] at hnew
    refine ⟨done ++ [p], ⟨?_, ?_, ?_⟩, List.subset_append_left _ _, ?_, ?_⟩
    · simp [h.seen]
    · rw [List.map_append]
      exact List.nodup_append'.mpr ⟨h.nodup, List.nodup_singleton _, by simpa using hnew⟩
    · simp [SetRef.close_calls, h.calls]
    · intro q hq
      simpa [or_comm] using hq
    · simp

theorem foldl_closeSet_closed (closer : Closer) (ps : List SetRef) {done : List SetRef}
    {c : Closing} (h : Closed done c) : ∃ done', Closed done' (ps.foldl (closeSet closer) c) ∧
      done ⊆ done' ∧ done' ⊆ done ++ ps ∧ ∀ p ∈ ps, p.addr ∈ done'.map SetRef.addr := by
  induction ps generalizing done c with
  | nil => exact ⟨done, h, List.Subset.refl _, List.subset_append_left _ _, by simp⟩
  | cons p ps ih =>
    obtain ⟨done₁, h₁, hkept₁, hsub₁, hp⟩ := closeSet_closed closer h p
    obtain ⟨done₂, h₂, hkept₂, hsub₂, hps⟩ := ih h₁
    refine ⟨done₂, h₂, fun q hq => hkept₂ (hkept₁ hq), fun q hq => ?_, fun q hq => ?_⟩
    · rcases List.mem_append.mp (hsub₂ hq) with hq | hq
      · have hcons := hsub₁ hq
        simp only [List.mem_cons, List.mem_append] at hcons ⊢
        exact hcons.elim (fun h => .inr (.inl h)) .inl
      · exact List.mem_append_right _ (List.mem_cons_of_mem _ hq)
    · rcases List.mem_cons.mp hq with rfl | hq
      · exact List.map_subset _ hkept₂ hp
      · exact hps q hq

/-! ## Every engine once -/

theorem building_compile_ok [Library] [Heap] [Constructors] {fs : FileSystem} {cfg : MergedConfig}
    {r : Resolver} (hc : compile fs cfg = .ok r) : (Building.compile fs cfg {}).1 = .ok r := by
  have hends := compile_ends fs cfg
  rw [hc] at hends
  obtain ⟨run, hrun⟩ : ∃ run, Building.compile fs cfg {} = run := ⟨_, rfl⟩
  rw [hrun] at hends ⊢
  obtain ⟨e | r', b⟩ := run
  · cases hends.1
  · exact hends.symm

section
variable {a : Alloc} {held : List SetRef}

theorem Holds.addr_injective (h : Holds held a) {p q : SetRef} (hp : p ∈ a.sets) (hq : q ∈ a.sets)
    (haddr : p.addr = q.addr) : p = q := by
  have hnodup : (a.sets.map SetRef.addr).Nodup := h.addrs ▸ List.nodup_range
  exact List.inj_on_of_nodup_map hnodup hp hq haddr

/-- The sets closed on a walk over all that is held are the sets allocated. -/
theorem Holds.perm_done (h : Holds held a) {ps done : List SetRef} {c : Closing}
    (hps : ∀ p, p ∈ ps ↔ p ∈ held) (hdone : Closed done c) (hsub : done ⊆ ps)
    (hall : ∀ p ∈ ps, p.addr ∈ done.map SetRef.addr) : done.Perm a.sets := by
  have hmem : ∀ p, p ∈ ps ↔ p ∈ a.sets := fun p => (hps p).trans (h.held p)
  have hsets : (a.sets.map SetRef.addr).Nodup := h.addrs ▸ List.nodup_range
  refine (List.perm_ext_iff_of_nodup (.of_map _ hdone.nodup) (.of_map _ hsets)).mpr fun p => ?_
  refine ⟨fun hp => (hmem p).mp (hsub hp), fun hp => ?_⟩
  obtain ⟨q, hq, haddr⟩ := List.mem_map.mp (hall p ((hmem p).mpr hp))
  rwa [← h.addr_injective ((hmem q).mp (hsub hq)) hp haddr]

theorem Holds.positions (h : Holds held a) :
    a.sets.flatMap SetRef.positions = List.range a.constructed.length := by
  have hmap : a.sets.flatMap SetRef.positions = (a.sets.flatMap SetRef.engines).map Prod.snd :=
    List.map_flatMap.symm
  rw [hmap, h.engines, List.zipIdx_map_snd, List.range_eq_range']

theorem Holds.close_perm {r : ResolverRef} (h : Holds r.refs a) (closer : Closer)
    {keys : List Bytes} (hkeys : KeyOrder r keys) :
    ((r.close closer keys).2).Perm (List.range a.constructed.length) := by
  have hstart : Closed [] {} := ⟨rfl, List.nodup_nil, rfl⟩
  obtain ⟨done, hdone, -, hsub, hall⟩ := foldl_closeSet_closed closer
    ((r.walk keys).flatMap DomainRef.refs) hstart
  have hwalk : ∀ p, p ∈ (r.walk keys).flatMap DomainRef.refs ↔ p ∈ r.refs := by
    intro p
    simp only [ResolverRef.refs, List.mem_flatMap, hkeys.mem_walk]
  rw [close_calls_eq, hdone.calls, ← h.positions]
  exact (h.perm_done hwalk hdone hsub hall).flatMap_right _

end

/-- Whatever engine specs the policies of a validated config share, whatever order the hosts are
visited in and whichever calls fail: each engine constructed is closed by one call. -/
theorem close_is_exact [Library] [Heap] [Constructors] {fs : FileSystem} {cfg : MergedConfig}
    {r : Resolver} (hv : Validated cfg) (hc : compile fs cfg = .ok r) :
    ∃ ref a, Allocating.compile fs cfg {} = (.ok ref, a) ∧ ref.resolver = r ∧
      a.constructed = (Building.compile fs cfg {}).2.constructed ∧
      ∀ closer keys, KeyOrder ref keys →
        ((ref.close closer keys).2).Perm (List.range a.constructed.length) := by
  obtain ⟨hresult, hsame⟩ := compile_follows fs cfg {} {} ⟨rfl, rfl⟩
  have hbuilding : (Building.compile fs cfg {}).1 = .ok r := building_compile_ok hc
  have hholds := compile_holds fs cfg fun md hmd => hv.hosts_ne_nil hmd
  rw [hbuilding] at hresult
  obtain ⟨run, hrun⟩ : ∃ run, Allocating.compile fs cfg {} = run := ⟨_, rfl⟩
  rw [hrun] at hresult hsame hholds
  obtain ⟨e | ref, a⟩ := run
  · cases hresult
  · exact ⟨ref, a, hrun, Except.ok.inj hresult, hsame.constructed.symm,
      fun closer keys hkeys => hholds.close_perm closer hkeys⟩

/-- A default that two domains share, one under two hosts, and a route with its own. -/
def sharedFile : ParsedFile where
  name := ascii "shared.yaml"
  file :=
    { apiVersion := apiVersionV1
      kind := kindSecurityPolicy
      spec :=
        { defaults := { engines := some 0 }
          domains :=
            [{ hosts := [ascii "a.test", ascii "b.test"]
               routes := [{ «match» := { pathPrefix := ascii "/api" }
                            policy := { engines := some 1 } }] },
              { hosts := [ascii "*.c.test"] }] } }

@[reducible] def xfccHeap : Heap where
  engines _ := { xfcc := some { requirePresent := true } }

theorem shared_engines_closed_once :
    let _ := Library.nothing
    let _ := xfccHeap
    let _ := Constructors.nothing
    let cfg := merge [sharedFile]
    let fs : FileSystem := fun _ => none
    ∃ ref a, Allocating.compile fs cfg {} = (.ok ref, a) ∧ a.constructed.length = 2 ∧
      ref.refs.map SetRef.addr = [0, 1, 0, 1, 0] ∧
      ∀ closer, ((ref.close closer [ascii "b.test", ascii "a.test"]).2).Perm [0, 1] := by
  intro lib heap constructors cfg fs
  have hsome : (compile fs cfg).toOption.isSome = true := by decide +kernel
  obtain ⟨r, hr⟩ := Lib.exists_ok hsome
  have hv : Validated cfg := ⟨[sharedFile], by decide +kernel, rfl, by decide +kernel⟩
  obtain ⟨ref, a, hrun, -, -, hclose⟩ := close_is_exact hv hr
  have hindex : (Allocating.compile fs cfg {}).1.toOption.map
      (fun ref => (ref.refs.map SetRef.addr, ref.exact.map Prod.fst)) =
        some ([0, 1, 0, 1, 0], [ascii "a.test", ascii "b.test"]) := by decide +kernel
  have hlength : (Allocating.compile fs cfg {}).2.constructed.length = 2 := by decide +kernel
  rw [hrun] at hindex hlength
  obtain ⟨hrefs, hkeys⟩ := Prod.mk.inj (Option.some.inj hindex)
  refine ⟨ref, a, hrun, hlength, hrefs, fun closer => ?_⟩
  rw [show [0, 1] = List.range a.constructed.length by rw [hlength]; rfl]
  refine hclose closer _ ⟨by decide +kernel, fun key => ?_⟩
  rw [hkeys]
  exact (List.Perm.swap _ _ []).mem_iff

end ElchiShield.Policy
