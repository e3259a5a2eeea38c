import ElchiShield.Config.Types
import Mathlib.Data.List.AList
import Mathlib.Data.List.Dedup

/-! # The replay cache

Package `engine/auth`: a sharded cache of nonces with two generations per shard. As long as
no shard fills up, it behaves as a log of the uses it has let through. -/
namespace ElchiShield.Auth
open ElchiShield.Go ElchiShield.Config

/-- Nanoseconds since the epoch. -/
abbrev Time := Int

def numShards : Nat := 64
def maxKeysPerShard : Nat := 16384

/-- The expiry of each nonce. -/
abbrev Generation := AList fun _ : Bytes => Time

structure ReplayShard where
  cur : Generation := ∅
  prev : Generation := ∅

abbrev Shards := Fin numShards → ReplayShard

/-- `index` is what `maphash` says under the seed of the cache, masked. The shards, which
change, are kept apart. -/
structure ReplayCache where
  ttl : Duration
  index : Bytes → Fin numShards

def noShards : Shards := fun _ => {}

/-- The expiry of a nonce, if it has not passed. -/
def live (m : Generation) (nonce : Bytes) (now : Time) : Option Time :=
  (m.lookup nonce).filter (now < ·)

def ReplayShard.seenBefore (s : ReplayShard) (ttl : Duration) (now : Time) (nonce : Bytes) :
    Bool × ReplayShard :=
  if (live s.cur nonce now).isSome then (true, s)
  else match live s.prev nonce now with
    | some exp => (true, { s with cur := s.cur.insert nonce exp })
    | none =>
      let s := if maxKeysPerShard ≤ s.cur.keys.length then ⟨∅, s.cur⟩ else s
      (false, { s with cur := s.cur.insert nonce (now + ttl) })

def ReplayCache.seenBefore (c : ReplayCache) (shards : Shards) (now : Time) (nonce : Bytes) :
    Bool × Shards :=
  if nonce = [] then (false, shards)
  else
    let r := (shards (c.index nonce)).seenBefore c.ttl now nonce
    (r.1, Function.update shards (c.index nonce) r.2)

/-! ## The log of uses -/

/-- The uses that were let through, the latest first. -/
abbrev Uses := List (Bytes × Time)

/-- The last use of the nonce is less than the lifetime of an entry ago. -/
def Uses.recent (uses : Uses) (ttl : Duration) (now : Time) (nonce : Bytes) : Prop :=
  ∃ t, uses.lookup nonce = some t ∧ now < t + ttl

/-- The shards hold the last use of each nonce, and nothing else. -/
structure Remembers (c : ReplayCache) (shards : Shards) (uses : Uses) : Prop where
  cur : ∀ nonce, (shards (c.index nonce)).cur.lookup nonce = (uses.lookup nonce).map (· + c.ttl)
  prev : ∀ i, (shards i).prev = ∅
  home : ∀ i, ∀ nonce ∈ (shards i).cur, c.index nonce = i

theorem remembers_nothing (c : ReplayCache) : Remembers c noShards [] where
  cur _ := rfl
  prev _ := rfl
  home _ nonce h := absurd h (AList.notMem_empty nonce)

section
variable {c : ReplayCache} {shards : Shards} {uses : Uses}

theorem Remembers.live_iff (h : Remembers c shards uses) (now : Time) (nonce : Bytes) :
    (live (shards (c.index nonce)).cur nonce now).isSome = true ↔ uses.recent c.ttl now nonce := by
  unfold live Uses.recent
  rw [h.cur]
  cases uses.lookup nonce with
  | none => simp
  | some t => simp

/-- A use that is recorded, in a shard with room. -/
theorem Remembers.record (h : Remembers c shards uses) (nonce : Bytes) (now : Time) :
    Remembers c (Function.update shards (c.index nonce)
      { shards (c.index nonce) with
        cur := (shards (c.index nonce)).cur.insert nonce (now + c.ttl) })
      ((nonce, now) :: uses) := by
  refine ⟨?_, ?_, ?_⟩
  · intro other
    by_cases hother : other = nonce
    · subst hother
      simp
    · have hlookup : List.lookup other ((nonce, now) :: uses) = uses.lookup other := by
        have hne : (other == nonce) = false := by simpa using hother
        simp [List.lookup_cons, hne]
      rw [hlookup, ← h.cur other]
      by_cases hi : c.index other = c.index nonce
      · rw [hi, Function.update_self]
        exact AList.lookup_insert_ne hother
      · rw [Function.update_of_ne hi]
  · intro i
    by_cases hi : i = c.index nonce
    · subst hi
      rw [Function.update_self]
      exact h.prev _
    · rw [Function.update_of_ne hi]
      exact h.prev i
  · intro i other hmem
    by_cases hi : i = c.index nonce
    · subst hi
      rw [Function.update_self] at hmem
      rcases (AList.mem_insert _).mp hmem with rfl | hmem
      · rfl
      · exact h.home _ other hmem
    · rw [Function.update_of_ne hi] at hmem
      exact h.home i other hmem

/-- In a shard with room, a nonce was seen before if its last use is recent; any other use is
let through and recorded. -/
theorem seenBefore_spec (h : Remembers c shards uses) {nonce : Bytes} (hne : nonce ≠ [])
    (hroom : (shards (c.index nonce)).cur.keys.length < maxKeysPerShard) (now : Time) :
    (uses.recent c.ttl now nonce ∧ (c.seenBefore shards now nonce).1 = true ∧
      Remembers c (c.seenBefore shards now nonce).2 uses) ∨
    (¬ uses.recent c.ttl now nonce ∧ (c.seenBefore shards now nonce).1 = false ∧
      Remembers c (c.seenBefore shards now nonce).2 ((nonce, now) :: uses)) := by
  have hprev : live (shards (c.index nonce)).prev nonce now = none := by
    simp [live, h.prev]
  unfold ReplayCache.seenBefore ReplayShard.seenBefore
  rw [if_neg hne]
  by_cases hrecent : uses.recent c.ttl now nonce
  · rw [if_pos ((h.live_iff now nonce).mpr hrecent)]
    refine .inl ⟨hrecent, rfl, ?_⟩
    show Remembers c (Function.update shards (c.index nonce) (shards (c.index nonce))) uses
    rw [Function.update_eq_self]
    exact h
  · rw [if_neg fun hlive => hrecent ((h.live_iff now nonce).mp hlive), hprev]
    have hfull : ¬ maxKeysPerShard ≤ (shards (c.index nonce)).cur.keys.length := by omega
    dsimp only
    rw [if_neg hfull]
    exact .inr ⟨hrecent, rfl, h.record nonce now⟩

/-- Fewer distinct keys than a shard holds fall to each shard. -/
def Few (c : ReplayCache) (keys : List Bytes) : Prop :=
  ∀ i, ((keys.filter fun k => c.index k = i).dedup).length < maxKeysPerShard

theorem few_of_short (c : ReplayCache) {keys : List Bytes} (h : keys.length < maxKeysPerShard) :
    Few c keys := by
  intro i
  have hdedup := (List.dedup_sublist (keys.filter fun k => c.index k = i)).length_le
  have hfilter := List.length_filter_le (fun k => decide (c.index k = i)) keys
  omega

/-- A shard has room as long as few keys were used. -/
theorem Remembers.room (h : Remembers c shards uses) {keys : List Bytes}
    (huses : ∀ u ∈ uses, u.1 ∈ keys) (hfew : Few c keys) (i : Fin numShards) :
    (shards i).cur.keys.length < maxKeysPerShard := by
  refine lt_of_le_of_lt (List.Subperm.length_le ?_) (hfew i)
  refine List.subperm_of_subset (shards i).cur.keys_nodup fun nonce hmem => ?_
  have hi : c.index nonce = i := h.home i nonce hmem
  have hlookup : ((shards (c.index nonce)).cur.lookup nonce).isSome = true := by
    rw [hi]
    exact AList.lookup_isSome.mpr hmem
  rw [h.cur, Option.isSome_map] at hlookup
  obtain ⟨t, ht⟩ := Option.isSome_iff_exists.mp hlookup
  have hkeys : nonce ∈ keys := by
    obtain ⟨before, after, rfl, -⟩ := List.lookup_eq_some_iff.mp ht
    exact huses (nonce, t) (by simp)
  rw [List.mem_dedup, List.mem_filter]
  exact ⟨hkeys, decide_eq_true hi⟩

end

end ElchiShield.Auth
