import ElchiShield.Engine.Replay
import ElchiShield.Lib.Runs
import Mathlib.Data.List.Induction
import Mathlib.Order.Basic

/-! # Answers of the replay cache

A shard that fills up starts a new generation and forgets the one before the last. What a call is
answered rests on a recording that has not expired; and such a recording is found as long as fewer
other nonces than a generation holds have been presented in its shard since. -/
namespace ElchiShield.Auth
open ElchiShield.Go ElchiShield.Lib ElchiShield.Config

structure Call where
  now : Time
  nonce : Bytes
  deriving DecidableEq, Repr

def ReplayCache.present (c : ReplayCache) (shards : Shards) (x : Call) : Bool × Shards :=
  c.seenBefore shards x.now x.nonce

/-- The shards after a run of calls of a new cache. -/
def ReplayCache.after (c : ReplayCache) (past : List Call) : Shards :=
  runFrom c.present noShards past

/-- What a call is answered after a run of calls. -/
def ReplayCache.answer (c : ReplayCache) (past : List Call) (x : Call) : Bool :=
  (c.present (c.after past) x).1

/-- A call of the run recorded the nonce at `t`, and the calls `since` came after it. -/
def Recorded (c : ReplayCache) (past : List Call) (nonce : Bytes) (t : Time) (since : List Call) :
    Prop :=
  ∃ earlier, past = earlier ++ ⟨t, nonce⟩ :: since ∧ c.answer earlier ⟨t, nonce⟩ = false

/-- The other nonces of its shard, each once. -/
def others (c : ReplayCache) (nonce : Bytes) (since : List Call) : List Bytes :=
  ((since.map Call.nonce).filter fun k => k ≠ nonce ∧ c.index k = c.index nonce).dedup

theorem after_snoc (c : ReplayCache) (past : List Call) (x : Call) :
    c.after (past ++ [x]) = (c.present (c.after past) x).2 :=
  runFrom_append c.present noShards past [x]

theorem Recorded.snoc {c : ReplayCache} {past since : List Call} {nonce : Bytes} {t : Time}
    (h : Recorded c past nonce t since) (x : Call) :
    Recorded c (past ++ [x]) nonce t (since ++ [x]) := by
  obtain ⟨earlier, rfl, hanswer⟩ := h
  exact ⟨earlier, by simp, hanswer⟩

/-! ## One call of a shard -/

section
variable (s : ReplayShard) (ttl : Duration) (now : Time) (nonce : Bytes)

/-- The generation a new nonce is written to. -/
def ReplayShard.rotated : ReplayShard :=
  if maxKeysPerShard ≤ s.cur.keys.length then ⟨∅, s.cur⟩ else s

theorem seenBefore_cases :
    (∃ exp, s.cur.lookup nonce = some exp ∧ now < exp ∧ s.seenBefore ttl now nonce = (true, s)) ∨
    (∃ exp, live s.cur nonce now = none ∧ s.prev.lookup nonce = some exp ∧ now < exp ∧
      s.seenBefore ttl now nonce = (true, { s with cur := s.cur.insert nonce exp })) ∨
    live s.cur nonce now = none ∧ live s.prev nonce now = none ∧ s.seenBefore ttl now nonce =
      (false, { s.rotated with cur := s.rotated.cur.insert nonce (now + ttl) }) := by
  unfold ReplayShard.seenBefore
  cases hcur : live s.cur nonce now with
  | some exp =>
    obtain ⟨hlookup, hlive⟩ := Option.filter_eq_some_iff.mp hcur
    exact .inl ⟨exp, hlookup, of_decide_eq_true hlive, rfl⟩
  | none =>
    cases hprev : live s.prev nonce now with
    | some exp =>
      obtain ⟨hlookup, hlive⟩ := Option.filter_eq_some_iff.mp hprev
      exact .inr (.inl ⟨exp, rfl, hlookup, of_decide_eq_true hlive, rfl⟩)
    | none => exact .inr (.inr ⟨rfl, rfl, rfl⟩)

end

/-! ## Answers rest on recordings -/

/-- One of the generations has the nonce with this expiry. -/
def ReplayShard.Holds (s : ReplayShard) (nonce : Bytes) (exp : Time) : Prop :=
  s.cur.lookup nonce = some exp ∨ s.prev.lookup nonce = some exp

/-- What a shard holds after a call it held before, unless the call recorded it. -/
theorem holds_of_seenBefore {s : ReplayShard} {ttl : Duration} {now : Time} {nonce k : Bytes}
    {exp : Time} (h : (s.seenBefore ttl now nonce).2.Holds k exp) :
    s.Holds k exp ∨ k = nonce ∧ exp = now + ttl ∧ (s.seenBefore ttl now nonce).1 = false := by
  obtain ⟨_, -, -, heq⟩ | ⟨e, -, hprev, -, heq⟩ | ⟨-, -, heq⟩ := seenBefore_cases s ttl now nonce <;>
    rw [heq] at h ⊢
  · exact .inl h
  · rcases h with h | h
    · by_cases hk : k = nonce
      · subst hk
        rw [AList.lookup_insert] at h
        exact .inl (.inr (hprev.trans h))
      · rw [AList.lookup_insert_ne hk] at h
        exact .inl (.inl h)
    · exact .inl (.inr h)
  · -- a full generation becomes the one before, and the new one is empty
    have hrotated : ∀ e, s.rotated.Holds k e → s.Holds k e := by
      intro e he
      unfold ReplayShard.rotated at he
      split at he
      · rcases he with he | he
        · cases he
        · exact .inl he
      · exact he
    rcases h with h | h
    · by_cases hk : k = nonce
      · subst hk
        rw [AList.lookup_insert] at h
        exact .inr ⟨rfl, (Option.some.inj h).symm, rfl⟩
      · rw [AList.lookup_insert_ne hk] at h
        exact .inl (hrotated exp (.inl h))
    · exact .inl (hrotated exp (.inr h))

section
variable {c : ReplayCache}

theorem present_home {x : Call} (hne : x.nonce ≠ []) (shards : Shards) :
    c.present shards x = (((shards (c.index x.nonce)).seenBefore c.ttl x.now x.nonce).1,
      Function.update shards (c.index x.nonce)
        ((shards (c.index x.nonce)).seenBefore c.ttl x.now x.nonce).2) := by
  rw [ReplayCache.present, ReplayCache.seenBefore, if_neg hne]

theorem present_empty {x : Call} (h : x.nonce = []) (shards : Shards) :
    c.present shards x = (false, shards) := by
  rw [ReplayCache.present, ReplayCache.seenBefore, if_pos h]

/-- Every entry comes from a recording. -/
theorem recorded_of_holds (c : ReplayCache) (past : List Call) {i : Fin numShards} {k : Bytes}
    {exp : Time} (h : (c.after past i).Holds k exp) :
    ∃ t since, Recorded c past k t since ∧ exp = t + c.ttl := by
  induction past using List.reverseRecOn generalizing i k exp with
  | nil =>
    rcases h with h | h <;> cases h
  | append_singleton past x ih =>
    have hold : (c.after past i).Holds k exp →
        ∃ t since, Recorded c (past ++ [x]) k t since ∧ exp = t + c.ttl := by
      intro hholds
      obtain ⟨t, since, hrecorded, hexp⟩ := ih hholds
      exact ⟨t, _, hrecorded.snoc x, hexp⟩
    rw [after_snoc] at h
    by_cases hne : x.nonce = []
    · rw [present_empty hne] at h
      exact hold h
    · rw [present_home hne] at h
      dsimp only at h
      by_cases hi : i = c.index x.nonce
      · subst hi
        rw [Function.update_self] at h
        obtain hbefore | ⟨rfl, rfl, hanswer⟩ := holds_of_seenBefore h
        · exact hold hbefore
        · refine ⟨x.now, [], ⟨past, rfl, ?_⟩, rfl⟩
          rw [ReplayCache.answer, present_home hne]
          exact hanswer
      · rw [Function.update_of_ne hi] at h
        exact hold h

theorem holds_of_answer {past : List Call} {x : Call} (h : c.answer past x = true) :
    ∃ exp, (c.after past (c.index x.nonce)).Holds x.nonce exp ∧ x.now < exp := by
  by_cases hne : x.nonce = []
  · rw [ReplayCache.answer, present_empty hne] at h
    cases h
  · rw [ReplayCache.answer, present_home hne] at h
    obtain ⟨exp, hcur, hlive, -⟩ | ⟨exp, -, hprev, hlive, -⟩ | ⟨-, -, heq⟩ :=
      seenBefore_cases (c.after past (c.index x.nonce)) c.ttl x.now x.nonce
    · exact ⟨exp, .inl hcur, hlive⟩
    · exact ⟨exp, .inr hprev, hlive⟩
    · rw [heq] at h
      cases h

end

/-! ## Recordings that are kept -/

/-- The shard has the nonce, in its new generation or, where that was started after the recording,
in the one before. -/
def Kept (nonce : Bytes) (exp : Time) (others : List Bytes) (s : ReplayShard) : Prop :=
  s.cur.lookup nonce = some exp ∨
    s.cur.lookup nonce = none ∧ s.prev.lookup nonce = some exp ∧ ∀ k ∈ s.cur, k ∈ others

section
variable {nonce : Bytes} {exp : Time} {others : List Bytes} {s : ReplayShard} {ttl : Duration}
  {now : Time}

theorem live_of_lookup {m : Generation} (h : m.lookup nonce = some exp) (hlive : now < exp) :
    live m nonce now = some exp := by
  rw [live, h]
  exact Option.filter_some_pos (decide_eq_true hlive)

theorem live_of_lookup_none {m : Generation} (h : m.lookup nonce = none) :
    live m nonce now = none := by
  rw [live, h]
  rfl

/-- A call for the nonce itself finds it. -/
theorem Kept.seen (h : Kept nonce exp others s) (hnow : now < exp) :
    (s.seenBefore ttl now nonce).1 = true ∧ Kept nonce exp others (s.seenBefore ttl now nonce).2 := by
  unfold ReplayShard.seenBefore
  obtain hcur | ⟨hcur, hprev, -⟩ := h
  · rw [live_of_lookup hcur hnow]
    exact ⟨rfl, .inl hcur⟩
  · rw [live_of_lookup_none hcur, live_of_lookup hprev hnow]
    exact ⟨rfl, .inl (AList.lookup_insert _)⟩

/-- Writing another nonce into the new generation. -/
theorem Kept.insert (h : Kept nonce exp others s) {k : Bytes} (hk : k ≠ nonce) (hmem : k ∈ others)
    (t : Time) : Kept nonce exp others { s with cur := s.cur.insert k t } := by
  obtain hcur | ⟨hcur, hprev, hall⟩ := h
  · exact .inl ((AList.lookup_insert_ne hk.symm).trans hcur)
  · refine .inr ⟨(AList.lookup_insert_ne hk.symm).trans hcur, hprev, fun j hj => ?_⟩
    rcases (AList.mem_insert _).mp hj with rfl | hj
    · exact hmem
    · exact hall j hj

/-- A generation that others alone cannot fill holds the nonce when it is full. -/
theorem Kept.rotated (h : Kept nonce exp others s) (hfew : others.length < maxKeysPerShard) :
    Kept nonce exp others s.rotated := by
  unfold ReplayShard.rotated
  split
  next hfull =>
    obtain hcur | ⟨-, -, hall⟩ := h
    · exact .inr ⟨AList.lookup_empty _, hcur, fun k hk => absurd hk (AList.notMem_empty k)⟩
    · have hle : s.cur.keys.length ≤ others.length :=
        (List.subperm_of_subset s.cur.keys_nodup hall).length_le
      omega
  next => exact h

theorem Kept.step (h : Kept nonce exp others s) (hfew : others.length < maxKeysPerShard)
    (hnow : now < exp) {k : Bytes} (hk : k ≠ nonce → k ∈ others) :
    Kept nonce exp others (s.seenBefore ttl now k).2 := by
  by_cases hsame : k = nonce
  · subst hsame
    exact (h.seen hnow).2
  obtain ⟨_, -, -, heq⟩ | ⟨e, -, -, -, heq⟩ | ⟨-, -, heq⟩ := seenBefore_cases s ttl now k <;> rw [heq]
  · exact h
  · exact h.insert hsame (hk hsame) e
  · exact (h.rotated hfew).insert hsame (hk hsame) _

end

section
variable {c : ReplayCache}

/-- A run of calls keeps a recording that few others come after. -/
theorem kept_run {nonce : Bytes} {exp : Time} {since : List Call} {shards : Shards}
    (h : Kept nonce exp (others c nonce since) (shards (c.index nonce)))
    (hfew : (others c nonce since).length < maxKeysPerShard) (hnow : ∀ x ∈ since, x.now < exp) :
    Kept nonce exp (others c nonce since) (runFrom c.present shards since (c.index nonce)) := by
  refine runFrom_invariant
    (I := fun shards : Shards => Kept nonce exp (others c nonce since) (shards (c.index nonce))) ?_ h
  intro x hx shards hkept
  by_cases hne : x.nonce = []
  · rw [present_empty hne]
    exact hkept
  rw [present_home hne]
  dsimp only
  by_cases hhome : c.index nonce = c.index x.nonce
  · rw [← hhome, Function.update_self]
    refine hkept.step hfew (hnow x hx) fun hk => ?_
    rw [others, List.mem_dedup, List.mem_filter]
    exact ⟨List.mem_map_of_mem hx, by simp [hk, hhome]⟩
  · rw [Function.update_of_ne hhome]
    exact hkept

/-- The call that records a nonce writes it to the new generation. -/
theorem kept_recording {nonce : Bytes} (hne : nonce ≠ []) {shards : Shards} {t : Time}
    (h : (c.present shards ⟨t, nonce⟩).1 = false) (others : List Bytes) :
    Kept nonce (t + c.ttl) others ((c.present shards ⟨t, nonce⟩).2 (c.index nonce)) := by
  rw [present_home hne] at h ⊢
  dsimp only at h ⊢
  rw [Function.update_self]
  obtain ⟨_, -, -, heq⟩ | ⟨_, -, -, -, heq⟩ | ⟨-, -, heq⟩ :=
    seenBefore_cases (shards (c.index nonce)) c.ttl t nonce <;> rw [heq] at h ⊢
  · cases h
  · cases h
  · exact .inl (AList.lookup_insert _)

/-- Of two calls of a run the one with fewer calls after it is the later one. -/
theorem now_le_of_since {past earlier since earlier' since' : List Call} {x y : Call}
    (hclock : past.Pairwise fun a b => a.now ≤ b.now) (hx : past = earlier ++ x :: since)
    (hy : past = earlier' ++ y :: since') (h : since.length ≤ since'.length) : y.now ≤ x.now := by
  have hbefore : ∀ z ∈ earlier, z.now ≤ x.now := by
    rw [hx] at hclock
    exact fun z hz => (List.pairwise_append.mp hclock).2.2 z hz x List.mem_cons_self
  rcases List.append_eq_append_iff.mp (hy.symm.trans hx) with ⟨mid, rfl, hmid⟩ | ⟨mid, rfl, hmid⟩
  · cases mid with
    | nil => exact le_of_eq (congrArg Call.now (List.cons.inj hmid).1)
    | cons z mid =>
      obtain ⟨rfl, -⟩ := List.cons.inj hmid
      exact hbefore y (by simp)
  · cases mid with
    | nil => exact le_of_eq (congrArg Call.now (List.cons.inj hmid).1.symm)
    | cons z mid =>
      -- the other call would come after `x`
      have hlength := congrArg List.length hmid
      simp only [List.length_append, List.length_cons] at hlength
      omega

/-- **Answers are exact.** With a clock that does not go back, a nonce was seen before only if it
was recorded less than the lifetime of an entry ago; and it is so answered if fewer other nonces of
its shard than a generation holds were presented since it was last recorded. -/
theorem answers_exact (c : ReplayCache) (past : List Call) (x : Call) (hne : x.nonce ≠ [])
    (hclock : (past ++ [x]).Pairwise fun a b => a.now ≤ b.now) :
    (c.answer past x = true →
      ∃ t since, Recorded c past x.nonce t since ∧ x.now < t + c.ttl) ∧
    ∀ t since, Recorded c past x.nonce t since →
      (∀ t' since', Recorded c past x.nonce t' since' → since.length ≤ since'.length) →
      (∃ t' since', Recorded c past x.nonce t' since' ∧ x.now < t' + c.ttl) →
      (others c x.nonce since).length < maxKeysPerShard → c.answer past x = true := by
  obtain ⟨hpast, -, hlast⟩ := List.pairwise_append.mp hclock
  refine ⟨fun h => ?_, ?_⟩
  · obtain ⟨exp, hholds, hlive⟩ := holds_of_answer h
    obtain ⟨t, since, hrecorded, rfl⟩ := recorded_of_holds c past hholds
    exact ⟨t, since, hrecorded, hlive⟩
  · rintro t since ⟨earlier, hsplit, hanswer⟩ hleast ⟨t', since', hrecorded, hlive⟩ hfew
    have hlate : t' ≤ t := by
      obtain ⟨earlier', hsplit', -⟩ := id hrecorded
      exact now_le_of_since hpast hsplit hsplit' (hleast t' since' hrecorded)
    have hexp : x.now < t + c.ttl := lt_of_lt_of_le hlive (Int.add_le_add_right hlate _)
    have hnow : ∀ y ∈ since, y.now < t + c.ttl := by
      intro y hy
      have hle : y.now ≤ x.now := hlast y (by rw [hsplit]; simp [hy]) x (by simp)
      exact lt_of_le_of_lt hle hexp
    have hkept := kept_run (kept_recording hne hanswer (others c x.nonce since)) hfew hnow
    have hafter : c.after past =
        runFrom c.present (c.present (c.after earlier) ⟨t, x.nonce⟩).2 since := by
      rw [hsplit, ReplayCache.after, runFrom_append]
      rfl
    rw [ReplayCache.answer, present_home hne, hafter]
    exact (hkept.seen hexp).1

end

/-- A nonce presented twice, with another one in between. -/
theorem repeated_nonce_is_seen :
    let c : ReplayCache := ⟨10, fun _ => ⟨0, by decide⟩⟩
    let past : List Call := [⟨0, ascii "a"⟩, ⟨5, ascii "b"⟩]
    c.answer past ⟨9, ascii "a"⟩ = true ∧
      ∃ t since, Recorded c past (ascii "a") t since ∧ (9 : Int) < t + 10 := by
  intro c past
  have hexact := answers_exact c past ⟨9, ascii "a"⟩ (by decide) (by decide)
  have hfirst : Recorded c past (ascii "a") 0 [⟨5, ascii "b"⟩] := ⟨[], rfl, rfl⟩
  have hlast : ∀ t' since', Recorded c past (ascii "a") t' since' → 1 ≤ since'.length := by
    rintro t' since' ⟨earlier, hsplit, -⟩
    cases since' with
    | nil =>
      have hend := congrArg (fun l => l.getLast?.map Call.nonce) hsplit
      simp [past] at hend
      exact absurd hend (by decide)
    | cons y since' => simp
  have hseen := hexact.2 0 _ hfirst hlast ⟨0, _, hfirst, by decide⟩ (by decide +kernel)
  exact ⟨hseen, hexact.1 hseen⟩

end ElchiShield.Auth
