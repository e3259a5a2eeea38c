import ElchiShield.Engine.RateLimit
import ElchiShield.Lib.Lockstep
import ElchiShield.Lib.Sizes

/-! # Evicted buckets

A full shard makes room by dropping the buckets that have been idle for as long as an empty one
takes to fill. The limiter it is compared with keeps every bucket for ever. -/
namespace ElchiShield.RateLimit
open ElchiShield.Go ElchiShield.Lib ElchiShield.Engine

/-! ## The limiter that keeps every bucket -/

abbrev Ledger := Bytes → Option Bucket

/-- A call on a bucket: it is refilled, and a token is taken if there is one. -/
def spend (e : Engine) (now : Rat) (b : Bucket) : Bool × Bucket :=
  if 1 ≤ (refill e now b).tokens then
    (true, { refill e now b with tokens := (refill e now b).tokens - 1 })
  else (false, refill e now b)

def keepAll (e : Engine) (ledger : Ledger) (call : Call) : Bool × Ledger :=
  match ledger call.key with
  | none => (true, Function.update ledger call.key (some ⟨e.burst - 1, call.time⟩))
  | some b =>
    ((spend e call.time b).1, Function.update ledger call.key (some (spend e call.time b).2))

def emptyLedger : Ledger := fun _ => none

section
variable {e : Engine} {ledger : Ledger} {call : Call}

theorem keepAll_new (h : ledger call.key = none) :
    keepAll e ledger call =
      (true, Function.update ledger call.key (some ⟨e.burst - 1, call.time⟩)) := by
  rw [keepAll, h]

theorem keepAll_known {b : Bucket} (h : ledger call.key = some b) :
    keepAll e ledger call = ((spend e call.time b).1,
      Function.update ledger call.key (some (spend e call.time b).2)) := by
  rw [keepAll, h]

theorem keepAll_other {k : Bytes} (hk : k ≠ call.key) : (keepAll e ledger call).2 k = ledger k := by
  unfold keepAll
  split
  next => exact Function.update_of_ne hk _ _
  next => exact Function.update_of_ne hk _ _

end

section
variable {e : Engine} {shards : Shards} {call : Call} {t : Rat} {b : Bucket}

/-- The limiter with shards spends from a bucket it has in the same way. -/
theorem step_spend (hb : bucketOf e shards call.key = some b) :
    (step e shards call).1 = (spend e call.time b).1 ∧
      bucketOf e (step e shards call).2 call.key = some (spend e call.time b).2 := by
  unfold spend
  rcases step_known hb with ⟨htoken, hanswer, hafter⟩ | ⟨htoken, hanswer, hafter⟩
  · rw [if_pos htoken]
    exact ⟨hanswer, hafter⟩
  · rw [if_neg htoken]
    exact ⟨hanswer, hafter⟩

theorem spend_valid (hrps : 0 < e.rps) (hburst : 1 ≤ e.burst) (hb : b.Valid e t) :
    (spend e t b).2.Valid e t := by
  obtain ⟨htokens, hlast⟩ := refill_spec hb
  have hle := levelOf_le_burst e t (some b)
  have hnonneg := levelOf_nonneg (le_trans zero_le_one hburst) (le_of_lt hrps) hb
  rw [← htokens] at hle hnonneg
  unfold spend
  split
  next htoken =>
    exact ⟨sub_nonneg.mpr htoken, le_trans (sub_le_self _ zero_le_one) hle, le_of_eq hlast⟩
  next => exact ⟨hnonneg, hle, le_of_eq hlast⟩

/-- A bucket that has been idle for long enough is spent from like a new one. -/
theorem spend_idle (hrps : 0 < e.rps) (hburst : 1 ≤ e.burst) (hb : b.Valid e t)
    (hidle : e.burst / e.rps ≤ t - b.last) : spend e t b = (true, ⟨e.burst - 1, t⟩) := by
  obtain ⟨htokens, hlast⟩ := refill_spec hb
  rw [levelOf_idle hrps hb hidle] at htokens
  rw [spend, if_pos (by rw [htokens]; exact hburst), htokens]
  dsimp only
  rw [hlast]

end

/-! ## The simulation -/

/-- Every key has the bucket of the ledger, unless that one is full again. -/
structure StandsFor (e : Engine) (t : Rat) (shards : Shards) (ledger : Ledger) : Prop where
  valid : ∀ k b, ledger k = some b → b.Valid e t
  kept : ∀ k, bucketOf e shards k = ledger k ∨
    bucketOf e shards k = none ∧ ∃ b, ledger k = some b ∧ e.burst / e.rps ≤ t - b.last

section
variable {e : Engine} {t t' : Rat} {shards : Shards} {ledger : Ledger} {call : Call}

theorem standsFor_nothing (e : Engine) (t : Rat) : StandsFor e t noBuckets emptyLedger where
  valid _ _ h := by cases h
  kept _ := .inl rfl

theorem StandsFor.later (h : StandsFor e t shards ledger) (ht : t ≤ t') :
    StandsFor e t' shards ledger where
  valid k b hb := ⟨(h.valid k b hb).nonneg, (h.valid k b hb).le_burst,
    le_trans (h.valid k b hb).last ht⟩
  kept k := by
    obtain hsame | ⟨hnone, b, hb, hidle⟩ := h.kept k
    · exact .inl hsame
    · exact .inr ⟨hnone, b, hb, le_trans hidle (sub_le_sub_right ht _)⟩

/-- A call on a shard that is not saturated is answered as by the ledger, and both write the same
bucket. -/
theorem StandsFor.own (hrps : 0 < e.rps) (hburst : 1 ≤ e.burst)
    (h : StandsFor e call.time shards ledger) (hroom : saturated e shards call = false) :
    (step e shards call).1 = (keepAll e ledger call).1 ∧
      ∃ b, b.Valid e call.time ∧ bucketOf e (step e shards call).2 call.key = some b ∧
        (keepAll e ledger call).2 call.key = some b := by
  have hfresh : (⟨e.burst - 1, call.time⟩ : Bucket).Valid e call.time :=
    ⟨sub_nonneg.mpr hburst, sub_le_self _ zero_le_one, le_refl _⟩
  cases hb : bucketOf e shards call.key with
  | none =>
    obtain ⟨hallowed, hafter⟩ := step_new hb
    rw [hroom, if_neg Bool.false_ne_true] at hafter
    have hreply : keepAll e ledger call =
        (true, Function.update ledger call.key (some ⟨e.burst - 1, call.time⟩)) := by
      obtain hsame | ⟨-, b, hledger, hidle⟩ := h.kept call.key
      · exact keepAll_new (hsame.symm.trans hb)
      · rw [keepAll_known hledger, spend_idle hrps hburst (h.valid _ b hledger) hidle]
    rw [hreply]
    exact ⟨hallowed, _, hfresh, hafter, Function.update_self ..⟩
  | some b =>
    obtain ⟨hanswer, hafter⟩ := step_spend hb
    have hledger : ledger call.key = some b := by
      obtain hsame | ⟨hnone, -⟩ := h.kept call.key
      · exact hsame.symm.trans hb
      · rw [hnone] at hb
        cases hb
    rw [keepAll_known hledger]
    exact ⟨hanswer, _, spend_valid hrps hburst (h.valid _ b hledger), hafter,
      Function.update_self ..⟩

theorem StandsFor.step (hrps : 0 < e.rps) (hburst : 1 ≤ e.burst)
    (h : StandsFor e call.time shards ledger) (hroom : saturated e shards call = false) :
    (RateLimit.step e shards call).1 = (keepAll e ledger call).1 ∧
      StandsFor e call.time (RateLimit.step e shards call).2 (keepAll e ledger call).2 := by
  obtain ⟨hanswer, own, hvalid, hown, hown'⟩ := h.own hrps hburst hroom
  refine ⟨hanswer, ?_, ?_⟩
  · intro k b hb
    by_cases hk : k = call.key
    · subst hk
      obtain rfl := Option.some.inj (hown'.symm.trans hb)
      exact hvalid
    · rw [keepAll_other hk] at hb
      exact h.valid k b hb
  · intro k
    by_cases hk : k = call.key
    · subst hk
      exact .inl (hown.trans hown'.symm)
    · rw [keepAll_other hk]
      have hother : bucketOf e (RateLimit.step e shards call).2 k = bucketOf e shards k ∨ _ :=
        bucketOf_step_other hk
      obtain hsame | ⟨hevicted, b, hb, hidle⟩ := hother
      · rw [hsame]
        exact h.kept k
      · obtain heq | ⟨hnone, -⟩ := h.kept k
        · exact .inr ⟨hevicted, b, heq.symm.trans hb, hidle⟩
        · rw [hnone] at hb
          cases hb

end

/-! ## The size of a shard -/

section
variable {e : Engine}

theorem length_create_le (e : Engine) (now : Rat) (key : Bytes) {buckets : Buckets}
    (h : buckets.keys.length ≤ maxKeysPerShard) :
    (create e now key buckets).keys.length ≤ maxKeysPerShard := by
  have hevict := keys_evictIdle_le e now buckets
  unfold create
  split
  next =>
    split
    next => omega
    next hroom => exact le_trans (length_insert_le _ _ _) (not_le.mp hroom)
  next hroom => exact le_trans (length_insert_le _ _ _) (not_le.mp hroom)

theorem length_allowIn_le (now : Rat) (key : Bytes) {buckets : Buckets}
    (h : buckets.keys.length ≤ maxKeysPerShard) :
    (allowIn e now key buckets).2.keys.length ≤ maxKeysPerShard := by
  unfold allowIn
  cases hb : buckets.lookup key with
  | none => exact length_create_le e now key h
  | some b =>
    have hmem : key ∈ buckets := AList.lookup_isSome.mp (by rw [hb]; rfl)
    dsimp only
    split
    next => rw [length_insert_of_mem hmem]; exact h
    next => rw [length_insert_of_mem hmem]; exact h

theorem length_run_le (e : Engine) (calls : List Call) (i : Fin numShards) :
    (runFrom (step e) noBuckets calls i).keys.length ≤ maxKeysPerShard := by
  refine runFrom_invariant
    (I := fun shards : Shards => ∀ i, (shards i).keys.length ≤ maxKeysPerShard) ?_ ?_ i
  · intro call _ shards h i
    rw [step_snd]
    by_cases hi : i = e.index call.key
    · subst hi
      rw [Function.update_self]
      exact length_allowIn_le _ _ (h _)
    · rw [Function.update_of_ne hi]
      exact h i
  · exact fun _ => Nat.zero_le _

end

/-- As long as no call meets a saturated shard and the clock does not go back, every call is
answered as by a limiter that never drops a bucket. On every run a shard holds no more buckets than
it may. -/
theorem eviction_invisible (cfg : Config) (index : Bytes → Fin numShards) (e : Engine)
    (hnew : new cfg index = .ok e) (calls : List Call) :
    (calls.Pairwise (fun a b => a.time ≤ b.time) →
      (∀ ev ∈ trace (step e) noBuckets calls, saturated e ev.before ev.input = false) →
      (trace (step e) noBuckets calls).map Event.output =
        (trace (keepAll e) emptyLedger calls).map Event.output) ∧
    ∀ past, past <+: calls →
      ∀ i, (runFrom (step e) noBuckets past i).keys.length ≤ maxKeysPerShard := by
  obtain ⟨hrps, hburst⟩ := new_ok hnew
  refine ⟨fun hclock hroom => ?_, fun past _ => length_run_le e past⟩
  refine trace_simulates
    (R := fun is shards ledger => is.Pairwise (fun a b => a.time ≤ b.time) ∧
      ∀ i ∈ is.head?, StandsFor e i.time shards ledger)
    (C := fun ev => saturated e ev.before ev.input = false) ?_ ?_ hroom
  · intro call rest shards ledger hrel hnot
    obtain ⟨hclock, hstands⟩ := hrel
    obtain ⟨hanswer, hafter⟩ := (hstands call rfl).step hrps hburst hnot
    obtain ⟨hhead, htail⟩ := List.pairwise_cons.mp hclock
    exact ⟨hanswer, htail, fun i hi => hafter.later (hhead i (List.mem_of_mem_head? hi))⟩
  · exact ⟨hclock, fun i _ => standsFor_nothing e i.time⟩

/-! ## A shard full of idle buckets -/

section
variable {e : Engine} {i : Fin numShards} {shards : Shards} {calls : List Call}

theorem length_step_le (e : Engine) (shards : Shards) (call : Call) :
    ((step e shards call).2 (e.index call.key)).keys.length ≤
      (shards (e.index call.key)).keys.length + 1 := by
  rw [step_snd, Function.update_self]
  generalize shards (e.index call.key) = buckets
  have hevict := keys_evictIdle_le e call.time buckets
  unfold allowIn
  cases buckets.lookup call.key with
  | some b =>
    dsimp only
    split
    next => exact length_insert_le ..
    next => exact length_insert_le ..
  | none =>
    unfold create
    dsimp only
    split
    next =>
      split
      next => exact le_trans hevict (Nat.le_succ _)
      next => exact le_trans (length_insert_le ..) (Nat.succ_le_succ hevict)
    next => exact length_insert_le ..

/-- No call meets a saturated shard while there is room for as many buckets as there are calls. -/
theorem not_saturated_of_few (hi : ∀ c ∈ calls, e.index c.key = i)
    (hroom : (shards i).keys.length + calls.length ≤ maxKeysPerShard) :
    ∀ ev ∈ trace (step e) shards calls, saturated e ev.before ev.input = false := by
  induction calls generalizing shards with
  | nil => simp [trace]
  | cons c calls ih =>
    obtain ⟨rfl, hrest⟩ := List.forall_mem_cons.mp hi
    have hstep := length_step_le e shards c
    have hevict := keys_evictIdle_le e c.time (shards (e.index c.key))
    rw [List.length_cons] at hroom
    refine List.forall_mem_cons.mpr ⟨?_, ih hrest (by omega)⟩
    have hfew : ¬ maxKeysPerShard ≤
        (evictIdle e c.time (shards (e.index c.key))).keys.length := by omega
    simp [event, saturated, hfew]

/-- A burst of one is spent with the first call. -/
theorem new_key_spends (hburst : e.burst = 1) {call : Call}
    (hnone : bucketOf e shards call.key = none) (hroom : saturated e shards call = false) :
    (trace (step e) shards [call, call]).map Event.output = [true, false] := by
  obtain ⟨hallowed, hbucket⟩ := step_new hnone
  rw [hroom, if_neg Bool.false_ne_true, hburst] at hbucket
  obtain ⟨htoken, -⟩ | ⟨-, hrefused, -⟩ := step_known hbucket
  · norm_num [refill] at htoken
  · simp [trace, event, hallowed, hrefused]

end

section
variable {index : Bytes → Fin numShards} {i : Fin numShards} {keys more : List Bytes}
  {shards : Shards} {k other : Bytes}

/-- After a second all the buckets of a flood are idle. -/
theorem Flooded.evictIdle_all (h : Flooded i keys shards) :
    evictIdle (slowEngine index) 1 (shards i) = ∅ := by
  refine AList.ext (List.filter_eq_nil_iff.mpr ?_)
  intro en hen
  rw [h.fresh en hen]
  simp [slowEngine]

/-- The call that finds the shard full of idle buckets leaves its own bucket only. -/
theorem Flooded.evicts (h : Flooded i keys shards) (hi : index k = i) (hk : k ∉ keys)
    (hfull : maxKeysPerShard ≤ keys.length) :
    saturated (slowEngine index) shards ⟨k, 1⟩ = false ∧
      (step (slowEngine index) shards ⟨k, 1⟩).2 i = (∅ : Buckets).insert k ⟨0, 1⟩ := by
  subst hi
  have hnone : (shards (index k)).lookup k = none := h.lookup_none hk
  have hall : evictIdle (slowEngine index) 1 (shards (index k)) = ∅ := h.evictIdle_all
  have hroom : ¬ maxKeysPerShard ≤ (∅ : Buckets).keys.length := by decide
  refine ⟨?_, ?_⟩
  · rw [saturated, show evictIdle (slowEngine index) 1 (shards ((slowEngine index).index k)) = ∅
      from hall, decide_eq_false hroom, Bool.and_false]
  · show Function.update shards (index k) (allowIn (slowEngine index) 1 k (shards (index k))).2 _ = _
    rw [Function.update_self, allowIn, hnone]
    dsimp only
    rw [create, if_pos (h.length ▸ hfull), hall, if_neg hroom]
    norm_num [slowEngine]

/-- The keys that fill a shard, another one after a second, and one of the first again. -/
def returning (more : List Bytes) (other k : Bytes) : List Call :=
  (more.map fun k => ⟨k, 0⟩) ++ [⟨other, 1⟩, ⟨k, 1⟩, ⟨k, 1⟩]

theorem returning_clock (more : List Bytes) (other k : Bytes) :
    (returning more other k).Pairwise fun a b => a.time ≤ b.time := by
  refine List.pairwise_append.mpr ⟨?_, by simp, ?_⟩
  · exact List.pairwise_map.mpr (List.pairwise_of_forall fun _ _ => le_refl _)
  · intro a ha b hb
    obtain ⟨_, -, rfl⟩ := List.mem_map.mp ha
    simp only [List.mem_cons, List.not_mem_nil, or_false] at hb
    rcases hb with rfl | rfl | rfl
    all_goals exact zero_le_one

/-- The bucket of the key is there, is evicted, and is made again; no call of them meets a
saturated shard. -/
theorem returning_evicts (hshard : ∀ k' ∈ other :: more, index k' = i)
    (hnodup : (other :: more).Nodup) (hlength : more.length = maxKeysPerShard) (hk : k ∈ more) :
    let e := slowEngine index
    let full := runFrom (step e) noBuckets (more.map fun k => ⟨k, 0⟩)
    let evicted := (step e full ⟨other, 1⟩).2
    (bucketOf e full k).isSome ∧ bucketOf e evicted k = none ∧
      (trace (step e) evicted [⟨k, 1⟩, ⟨k, 1⟩]).map Event.output = [true, false] ∧
      ∀ ev ∈ trace (step e) noBuckets (returning more other k),
        saturated e ev.before ev.input = false := by
  intro e full evicted
  obtain ⟨hother, hmore⟩ := List.forall_mem_cons.mp hshard
  obtain ⟨hnew, hnodup⟩ := List.nodup_cons.mp hnodup
  have hi : e.index k = i := hmore k hk
  have hflooded : Flooded i more.reverse full := flooded_run hmore hnodup (le_of_eq hlength)
  obtain ⟨hroom, hevicted⟩ : _ ∧ evicted i = _ := hflooded.evicts hother (by simpa using hnew)
    (by rw [List.length_reverse, hlength])
  have hne : k ≠ other := fun heq => hnew (heq ▸ hk)
  have hnone : bucketOf e evicted k = none := by
    rw [bucketOf, hi, hevicted, AList.lookup_insert_ne hne]
    exact AList.lookup_empty k
  have hfew : ∀ ev ∈ trace (step e) evicted [⟨k, 1⟩, ⟨k, 1⟩],
      saturated e ev.before ev.input = false := by
    refine not_saturated_of_few (i := i) (by simp [hi]) ?_
    rw [hevicted]
    show 1 + 2 ≤ maxKeysPerShard
    decide
  refine ⟨?_, hnone, new_key_spends rfl hnone (hfew _ List.mem_cons_self), ?_⟩
  · rw [bucketOf, hi]
    exact AList.lookup_isSome.mpr ((hflooded.mem k).mpr (List.mem_reverse.mpr hk))
  · rw [returning, trace_append]
    refine List.forall_mem_append.mpr ⟨?_, List.forall_mem_cons.mpr ⟨hroom, hfew⟩⟩
    refine not_saturated_of_few (i := i) ?_ ?_
    · intro c hc
      obtain ⟨k', hk', rfl⟩ := List.mem_map.mp hc
      exact hmore k' hk'
    · rw [List.length_map, hlength]
      exact le_of_eq (Nat.zero_add _)

end

/-- A shard is full of buckets that are idle when the next key comes. They are evicted, and one of
their keys that comes back is answered as if its bucket had been kept. -/
theorem returning_key_answered_alike :
    let index : Bytes → Fin numShards := fun _ => ⟨0, by decide⟩
    let e := slowEngine index
    let k := List.replicate 1 (ch 'k')
    let calls := returning floodKeys (ascii "192.0.2.1") k
    let full := runFrom (step e) noBuckets (floodKeys.map fun k => ⟨k, 0⟩)
    let evicted := (step e full ⟨ascii "192.0.2.1", 1⟩).2
    (bucketOf e full k).isSome ∧ bucketOf e evicted k = none ∧
      (trace (step e) evicted [⟨k, 1⟩, ⟨k, 1⟩]).map Event.output = [true, false] ∧
      (trace (step e) noBuckets calls).map Event.output =
        (trace (keepAll e) emptyLedger calls).map Event.output ∧
      (full (index k)).keys.length ≤ maxKeysPerShard := by
  intro index e k calls full evicted
  have hk : k ∈ floodKeys := List.mem_map.mpr ⟨0, List.mem_range.mpr (by decide), rfl⟩
  obtain ⟨hfull, hevicted, hanswers, hroom⟩ :=
    returning_evicts (fun _ _ => rfl) floodKeys_nodup floodKeys_length hk
  obtain ⟨halike, hsize⟩ := eviction_invisible slow index e (by rfl) calls
  exact ⟨hfull, hevicted, hanswers, halike (returning_clock ..) hroom,
    hsize _ (List.prefix_append ..) _⟩

end ElchiShield.RateLimit
