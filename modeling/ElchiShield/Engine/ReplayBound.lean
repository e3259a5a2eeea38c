import ElchiShield.Engine.ReplayExact
import ElchiShield.Lib.Sizes

/-! # The size of the replay cache

A shard starts a new generation when the current one is full. Only a nonce that is new is checked
for that: one that is found in the generation before is written to the current one in any case. -/
namespace ElchiShield.Auth
open ElchiShield.Go ElchiShield.Lib ElchiShield.Config

/-- What the two generations hold together. -/
def ReplayShard.entries (s : ReplayShard) : Nat := s.cur.keys.length + s.prev.keys.length

/-- A call that adds to a full generation: the nonce is found in the generation before alone. -/
def ReplayShard.overfills (s : ReplayShard) (now : Time) (nonce : Bytes) : Bool :=
  decide (maxKeysPerShard ≤ s.cur.keys.length) && decide (nonce ∉ s.cur) &&
    (live s.prev nonce now).isSome

def ReplayCache.overfills (c : ReplayCache) (shards : Shards) (x : Call) : Bool :=
  decide (x.nonce ≠ []) && (shards (c.index x.nonce)).overfills x.now x.nonce

/-! ## One call of a shard -/

/-- The generation before is empty or was full. -/
def ReplayShard.Aged (s : ReplayShard) : Prop :=
  s.prev = ∅ ∨ maxKeysPerShard ≤ s.prev.keys.length

/-- Neither generation holds more than it should. -/
structure ReplayShard.Small (s : ReplayShard) : Prop where
  cur : s.cur.keys.length ≤ maxKeysPerShard
  prev : s.prev.keys.length ≤ maxKeysPerShard

section
variable {s : ReplayShard} {ttl : Duration} {now : Time} {nonce : Bytes}

theorem ReplayShard.Small.entries_le (h : s.Small) : s.entries ≤ 2 * maxKeysPerShard := by
  have hcur := h.cur
  have hprev := h.prev
  unfold ReplayShard.entries
  omega

theorem ReplayShard.Small.rotated (h : s.Small) :
    s.rotated.cur.keys.length < maxKeysPerShard ∧
      s.rotated.prev.keys.length ≤ maxKeysPerShard := by
  unfold ReplayShard.rotated
  split
  next => exact ⟨by simp [maxKeysPerShard], h.cur⟩
  next hroom => exact ⟨not_le.mp hroom, h.prev⟩

/-- A call that does not overfill the current generation keeps both small. -/
theorem ReplayShard.Small.step (h : s.Small) (hroom : s.overfills now nonce = false) :
    (s.seenBefore ttl now nonce).2.Small := by
  obtain ⟨_, -, -, heq⟩ | ⟨exp, -, hprev, hlive, heq⟩ | ⟨-, -, heq⟩ :=
    seenBefore_cases s ttl now nonce <;> rw [heq]
  · exact h
  · refine ⟨?_, h.prev⟩
    by_cases hmem : nonce ∈ s.cur
    · rw [length_insert_of_mem hmem]
      exact h.cur
    · -- the nonce is found in the generation before, so there is room
      have hcur : ¬ maxKeysPerShard ≤ s.cur.keys.length := by
        intro hfull
        simp [ReplayShard.overfills, hfull, hmem, live_of_lookup hprev hlive] at hroom
      rw [length_insert_of_notMem hmem]
      omega
  · obtain ⟨hcur, hprev⟩ := h.rotated
    exact ⟨le_trans (length_insert_le _ _ _) hcur, hprev⟩

theorem ReplayShard.Aged.step (h : s.Aged) : (s.seenBefore ttl now nonce).2.Aged := by
  obtain ⟨_, -, -, heq⟩ | ⟨_, -, -, -, heq⟩ | ⟨-, -, heq⟩ :=
    seenBefore_cases s ttl now nonce <;> rw [heq]
  · exact h
  · exact h
  · show s.rotated.Aged
    unfold ReplayShard.rotated
    split
    next hfull => exact .inr hfull
    next => exact h

/-- A call that overfills the current generation breaks the bound. -/
theorem ReplayShard.Aged.overfilled (h : s.Aged) (hover : s.overfills now nonce = true) :
    2 * maxKeysPerShard < (s.seenBefore ttl now nonce).2.entries := by
  simp only [ReplayShard.overfills, Bool.and_eq_true, decide_eq_true_eq] at hover
  obtain ⟨⟨hcur, hmem⟩, hlive⟩ := hover
  have hnone : live s.cur nonce now = none := live_of_lookup_none (AList.lookup_eq_none.mpr hmem)
  obtain ⟨exp, hexp⟩ := Option.isSome_iff_exists.mp hlive
  have hprev : maxKeysPerShard ≤ s.prev.keys.length := by
    rcases h with hempty | hfull
    · rw [hempty] at hexp
      cases hexp
    · exact hfull
  have hstep : (s.seenBefore ttl now nonce).2 = { s with cur := s.cur.insert nonce exp } := by
    rw [ReplayShard.seenBefore, hnone, hexp]
    rfl
  rw [hstep]
  dsimp only [ReplayShard.entries]
  rw [length_insert_of_notMem hmem]
  omega

end

/-! ## Runs -/

section
variable {c : ReplayCache}

/-- What the calls of a shard keep, the calls of the cache keep for all shards. -/
theorem present_keeps {I : ReplayShard → Prop} {shards : Shards} {x : Call}
    (h : ∀ i, I (shards i))
    (hstep : x.nonce ≠ [] →
      I ((shards (c.index x.nonce)).seenBefore c.ttl x.now x.nonce).2) :
    ∀ i, I ((c.present shards x).2 i) := by
  intro i
  by_cases hne : x.nonce = []
  · rw [present_empty hne]
    exact h i
  · rw [present_home hne]
    dsimp only
    by_cases hi : i = c.index x.nonce
    · subst hi
      rw [Function.update_self]
      exact hstep hne
    · rw [Function.update_of_ne hi]
      exact h i

theorem aged_after (c : ReplayCache) (past : List Call) : ∀ i, (c.after past i).Aged := by
  refine runFrom_invariant (I := fun shards : Shards => ∀ i, (shards i).Aged) ?_ ?_
  · intro x _ shards h
    exact present_keeps h fun _ => (h _).step
  · exact fun _ => .inl rfl

/-- Whatever the clock and the nonces, each shard holds at most two generations' worth of entries
throughout a run exactly if no call of it finds its nonce in the generation before alone while the
current one is full. -/
theorem entries_le_iff (c : ReplayCache) (calls : List Call) :
    (∀ past, past <+: calls → ∀ i, (c.after past i).entries ≤ 2 * maxKeysPerShard) ↔
      ∀ past x, past ++ [x] <+: calls → c.overfills (c.after past) x = false := by
  constructor
  · intro h past x hpast
    by_contra hover
    rw [Bool.not_eq_false, ReplayCache.overfills, Bool.and_eq_true, decide_eq_true_eq] at hover
    obtain ⟨hne, hover⟩ := hover
    have hlarge : 2 * maxKeysPerShard < ((c.after past (c.index x.nonce)).seenBefore c.ttl x.now
        x.nonce).2.entries := (aged_after c past _).overfilled hover
    have hsmall := h (past ++ [x]) hpast (c.index x.nonce)
    rw [after_snoc, present_home hne] at hsmall
    dsimp only at hsmall
    rw [Function.update_self] at hsmall
    omega
  · intro h past hpast
    have hsmall : ∀ i, (c.after past i).Small := by
      induction past using List.reverseRecOn with
      | nil => exact fun _ => ⟨Nat.zero_le _, Nat.zero_le _⟩
      | append_singleton past x ih =>
        have hbefore := ih ((List.prefix_append past [x]).trans hpast)
        have hroom := h past x hpast
        rw [after_snoc]
        refine present_keeps hbefore fun hne => (hbefore _).step ?_
        simpa [ReplayCache.overfills, hne] using hroom
    exact fun i => (hsmall i).entries_le

end

/-! ## A flood that is replayed -/

section
variable {s : ReplayShard} {ttl : Duration} {now : Time}

/-- Nonces presented to a shard one after the other, at one time. -/
def ReplayShard.flooded (s : ReplayShard) (ttl : Duration) (now : Time) (ns : List Bytes) :
    ReplayShard :=
  runFrom (fun s k => s.seenBefore ttl now k) s ns

theorem flooded_append (s : ReplayShard) (ttl : Duration) (now : Time) (ns ms : List Bytes) :
    s.flooded ttl now (ns ++ ms) = (s.flooded ttl now ns).flooded ttl now ms :=
  runFrom_append _ s ns ms

theorem flooded_cons (s : ReplayShard) (ttl : Duration) (now : Time) (n : Bytes)
    (ns : List Bytes) :
    s.flooded ttl now (n :: ns) = (s.seenBefore ttl now n).2.flooded ttl now ns := rfl

theorem seenBefore_new {nonce : Bytes} (hcur : nonce ∉ s.cur) (hprev : nonce ∉ s.prev) :
    s.seenBefore ttl now nonce =
      (false, { s.rotated with cur := s.rotated.cur.insert nonce (now + ttl) }) := by
  rw [ReplayShard.seenBefore, live_of_lookup_none (AList.lookup_eq_none.mpr hcur),
    live_of_lookup_none (AList.lookup_eq_none.mpr hprev)]
  rfl

/-- What is left of a list of other nonces after one of them is written. -/
theorem notMem_insert {m : Generation} {n : Bytes} {exp : Time} {ns : List Bytes} (hn : n ∉ ns)
    (h : ∀ k ∈ ns, k ∉ m) : ∀ k ∈ ns, k ∉ m.insert n exp := by
  intro k hk hmem
  rcases (AList.mem_insert _).mp hmem with rfl | hmem
  · exact hn hk
  · exact h k hk hmem

/-- New nonces are recorded in the current generation as long as it has room. -/
theorem flooded_new {ns : List Bytes} (hnodup : ns.Nodup) (hcur : ∀ k ∈ ns, k ∉ s.cur)
    (hprev : ∀ k ∈ ns, k ∉ s.prev) (hroom : s.cur.keys.length + ns.length ≤ maxKeysPerShard) :
    (s.flooded ttl now ns).prev = s.prev ∧
      (s.flooded ttl now ns).cur.keys.length = s.cur.keys.length + ns.length ∧
      ∀ k, (s.flooded ttl now ns).cur.lookup k =
        if k ∈ ns then some (now + ttl) else s.cur.lookup k := by
  induction ns generalizing s with
  | nil => exact ⟨rfl, rfl, fun k => rfl⟩
  | cons n ns ih =>
    obtain ⟨hn, hnodup⟩ := List.nodup_cons.mp hnodup
    obtain ⟨hncur, hcur⟩ := List.forall_mem_cons.mp hcur
    obtain ⟨hnprev, hprev⟩ := List.forall_mem_cons.mp hprev
    rw [List.length_cons] at hroom
    have hstep : (s.seenBefore ttl now n).2 = { s with cur := s.cur.insert n (now + ttl) } := by
      rw [seenBefore_new hncur hnprev, ReplayShard.rotated, if_neg (by omega)]
    have hlength : (s.cur.insert n (now + ttl)).keys.length = s.cur.keys.length + 1 :=
      length_insert_of_notMem hncur
    rw [flooded_cons, hstep]
    obtain ⟨hsame, hlen, hlookup⟩ :=
      ih (s := { s with cur := s.cur.insert n (now + ttl) }) hnodup (notMem_insert hn hcur) hprev
        (by dsimp only; omega)
    refine ⟨hsame, by rw [hlen, List.length_cons]; dsimp only; omega, fun k => ?_⟩
    rw [hlookup]
    by_cases hk : k = n
    · subst hk
      simp [hn]
    · simp [hk]

/-- Nonces that are found in the generation before alone are all added to the current one. -/
theorem flooded_known {ns : List Bytes} (hnodup : ns.Nodup) (hcur : ∀ k ∈ ns, k ∉ s.cur)
    (hprev : ∀ k ∈ ns, (live s.prev k now).isSome = true) :
    (s.flooded ttl now ns).entries = s.entries + ns.length := by
  induction ns generalizing s with
  | nil => rfl
  | cons n ns ih =>
    obtain ⟨hn, hnodup⟩ := List.nodup_cons.mp hnodup
    obtain ⟨hncur, hcur⟩ := List.forall_mem_cons.mp hcur
    obtain ⟨hnprev, hprev⟩ := List.forall_mem_cons.mp hprev
    obtain ⟨exp, hexp⟩ := Option.isSome_iff_exists.mp hnprev
    have hstep : (s.seenBefore ttl now n).2 = { s with cur := s.cur.insert n exp } := by
      rw [ReplayShard.seenBefore, live_of_lookup_none (AList.lookup_eq_none.mpr hncur), hexp]
      rfl
    rw [flooded_cons, hstep,
      ih (s := { s with cur := s.cur.insert n exp }) hnodup (notMem_insert hn hcur) hprev]
    dsimp only [ReplayShard.entries]
    rw [length_insert_of_notMem hncur, List.length_cons]
    omega

/-- One nonce more than a generation holds, and then all of them but the last one again. -/
theorem flooded_twice {ns : List Bytes} {last : Bytes} (hnodup : (last :: ns).Nodup)
    (hlength : ns.length = maxKeysPerShard) (httl : 0 < ttl) :
    (({} : ReplayShard).flooded ttl now (ns ++ last :: ns)).entries =
      2 * maxKeysPerShard + 1 := by
  obtain ⟨hlast, hnodup⟩ := List.nodup_cons.mp hnodup
  obtain ⟨t, ht⟩ : ∃ t, ({} : ReplayShard).flooded ttl now ns = t := ⟨_, rfl⟩
  obtain ⟨hprev, hlen, hlookup⟩ : t.prev = ∅ ∧ t.cur.keys.length = 0 + ns.length ∧
      ∀ k, t.cur.lookup k = if k ∈ ns then some (now + ttl) else none := by
    rw [← ht]
    exact flooded_new hnodup (fun k _ => AList.notMem_empty k) (fun k _ => AList.notMem_empty k)
      (by simp [hlength])
  -- the last nonce finds the generation full
  have hstep : (t.seenBefore ttl now last).2 = ⟨AList.insert last (now + ttl) ∅, t.cur⟩ := by
    have hnot : last ∉ t.cur := AList.lookup_eq_none.mp ((hlookup last).trans (if_neg hlast))
    have hbefore : last ∉ t.prev := hprev ▸ AList.notMem_empty last
    rw [seenBefore_new hnot hbefore, ReplayShard.rotated, if_pos (by omega)]
  have hlive : ∀ k ∈ ns, (live t.cur k now).isSome = true := by
    intro k hk
    rw [live_of_lookup ((hlookup k).trans (if_pos hk)) (Int.lt_add_of_pos_right now httl)]
    rfl
  rw [flooded_append, ht, flooded_cons, hstep,
    flooded_known hnodup (notMem_insert hlast fun k _ => AList.notMem_empty k) hlive]
  have hone : (AList.insert last (now + ttl) (∅ : Generation)).keys.length = 1 :=
    length_insert_of_notMem (AList.notMem_empty last)
  dsimp only [ReplayShard.entries]
  omega

end

/-- A run of calls at one time, all for nonces of one shard. -/
theorem runFrom_home {c : ReplayCache} {i : Fin numShards} {now : Time} {ns : List Bytes}
    (h : ∀ k ∈ ns, k ≠ [] ∧ c.index k = i) (shards : Shards) :
    runFrom c.present shards (ns.map (Call.mk now)) i = (shards i).flooded c.ttl now ns := by
  induction ns generalizing shards with
  | nil => rfl
  | cons n ns ih =>
    obtain ⟨⟨hne, rfl⟩, hrest⟩ := List.forall_mem_cons.mp h
    have hstep : (c.present shards ⟨now, n⟩).2 (c.index n) =
        ((shards (c.index n)).seenBefore c.ttl now n).2 := by
      rw [present_home hne]
      exact Function.update_self ..
    rw [flooded_cons, ← hstep, ← ih hrest]
    rfl

/-- Nonces of one letter and of different lengths. -/
def floodNonces : List Bytes :=
  (List.range maxKeysPerShard).map fun n => List.replicate (n + 1) (ch 'n')

theorem floodNonces_nodup : (ascii "last" :: floodNonces).Nodup :=
  Lib.nodup_cons_runs (by decide) maxKeysPerShard

/-- With a hash that sends every nonce to one shard, all calls at one time. -/
theorem replayed_flood_overfills :
    let c : ReplayCache := ⟨minute, fun _ => ⟨0, by decide⟩⟩
    let calls := (floodNonces ++ ascii "last" :: floodNonces).map (Call.mk 0)
    2 * maxKeysPerShard < (c.after calls ⟨0, by decide⟩).entries := by
  intro c calls
  have hhome : ∀ k ∈ floodNonces ++ ascii "last" :: floodNonces,
      k ≠ [] ∧ c.index k = ⟨0, by decide⟩ := by
    intro k hk
    refine ⟨?_, rfl⟩
    rintro rfl
    simp [floodNonces] at hk
    exact absurd hk (by decide)
  have hlength : floodNonces.length = maxKeysPerShard := by
    rw [floodNonces, List.length_map, List.length_range]
  have hentries : (c.after calls ⟨0, by decide⟩).entries = 2 * maxKeysPerShard + 1 := by
    rw [ReplayCache.after, runFrom_home hhome]
    exact flooded_twice floodNonces_nodup hlength (by decide)
  omega

end ElchiShield.Auth
