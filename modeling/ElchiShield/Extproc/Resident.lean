import ElchiShield.Extproc.Decoded
import ElchiShield.Extproc.Rule
import ElchiShield.Extproc.Budget
import ElchiShield.Sensitive

/-! # Resident bodies

The budget bounds what streams have reserved. It bounds the bodies they hold as far as each body
is covered by its reservation: a chunk and the expansion of a decoded body are charged before
they are held, a redacted body is not charged at all. -/
namespace ElchiShield.Extproc
open ElchiShield.Go ElchiShield.Lib ElchiShield.Engine ElchiShield.Policy ElchiShield.Runtime
open ElchiShield.Pipeline ElchiShield.Stages

/-! ## Redaction that does not lengthen a body -/

/-- The matches of the kinds `redact` lie one after the other, and each is at least as long as the
tag "[REDACTED:kind]" that replaces it. A card number keeps its length. -/
def MasksFit (redact : List Bytes) (ms : List Match) : Prop :=
  (ms.filter fun m => redact.contains m.kind).Pairwise (fun m m' => m.stop ≤ m'.start) ∧
    ∀ m ∈ ms, redact.contains m.kind = true → m.kind ≠ ascii "credit_card" →
      m.start + (11 + m.kind.length) ≤ m.stop

theorem maskDigits_length (digits : Int) (seen : Nat) (bs : Bytes) :
    (maskDigits digits seen bs).length = bs.length := by
  induction bs generalizing seen with
  | nil => rfl
  | cons b bs ih =>
    unfold maskDigits
    split <;> simp [ih]

theorem mask_length_le {orig kind : Bytes}
    (h : kind ≠ ascii "credit_card" → 11 + kind.length ≤ orig.length) :
    (mask orig kind).length ≤ orig.length := by
  unfold mask
  split
  · exact (maskDigits_length _ _ _).le
  next hkind =>
    have htag : (ascii "[REDACTED:" ++ kind ++ ascii "]").length = 11 + kind.length := by
      have hopen : (ascii "[REDACTED:").length = 10 := by decide
      have hclose : (ascii "]").length = 1 := by decide
      rw [List.length_append, List.length_append, hopen, hclose]
      omega
    rw [htag]
    exact h hkind

theorem slice_length {body part : Bytes} {a b : Nat} (h : slice body a b = some part) :
    a ≤ b ∧ b ≤ body.length ∧ part.length = b - a := by
  unfold slice at h
  split at h
  next hab =>
    obtain rfl := Option.some.inj h
    refine ⟨hab.1, hab.2, ?_⟩
    rw [List.length_drop, List.length_take]
    omega
  next => cases h

/-- The loop of the redaction: what it has written is no longer than what it has read. -/
theorem redactLoop_length {body : Bytes} {redact : List Bytes} {ms : List Match}
    (hfit : MasksFit redact ms) {out out' : Bytes} {last last' : Nat} {changed changed' : Bool}
    (hnext : ∀ m ∈ ms, redact.contains m.kind = true → last ≤ m.start) (hout : out.length ≤ last)
    (h : redactLoop body redact ms (out, last, changed) = some (out', last', changed')) :
    out'.length ≤ last' := by
  induction ms generalizing out last changed with
  | nil =>
    obtain ⟨rfl, rfl, rfl⟩ : out = out' ∧ last = last' ∧ changed = changed' := by
      simpa [redactLoop] using h
    exact hout
  | cons m ms ih =>
    obtain ⟨hdisjoint, hlong⟩ := hfit
    have hlong' := fun m' hm' => hlong m' (List.mem_cons_of_mem _ hm')
    unfold redactLoop at h
    split at h
    next hskip =>
      rw [List.filter_cons_of_neg (by simpa using hskip)] at hdisjoint
      exact ih ⟨hdisjoint, hlong'⟩ (fun m' hm' => hnext m' (List.mem_cons_of_mem _ hm')) hout h
    next hredact =>
      have hkind : redact.contains m.kind = true := by simpa using hredact
      rw [List.filter_cons, if_pos hkind] at hdisjoint
      obtain ⟨hafter, hrest⟩ := List.pairwise_cons.mp hdisjoint
      have hstart := hnext m List.mem_cons_self hkind
      rw [if_neg (by omega)] at h
      -- the match starts after what was read so far, so it is copied up to and then masked
      obtain ⟨keep, hkeep, h⟩ := Option.bind_eq_some_iff.mp h
      obtain ⟨found, hfound, h⟩ := Option.bind_eq_some_iff.mp h
      obtain ⟨-, -, hkeeplen⟩ := slice_length hkeep
      obtain ⟨hle, -, hfoundlen⟩ := slice_length hfound
      have hmask : (mask found m.kind).length ≤ found.length := by
        refine mask_length_le fun hcard => ?_
        have := hlong m List.mem_cons_self hkind hcard
        omega
      refine ih ⟨hrest, hlong'⟩ ?_ ?_ h
      · intro m' hm' hkind'
        exact hafter m' (List.mem_filter.mpr ⟨hm', hkind'⟩)
      · rw [List.length_append, List.length_append]
        omega

theorem redactBody_length {body redacted : Bytes} {ms : List Match} {redact : List Bytes}
    (hfit : MasksFit redact ms) (h : redactBody body ms redact = some (redacted, true)) :
    redacted.length ≤ body.length := by
  unfold redactBody at h
  obtain ⟨⟨out, last, changed⟩, hloop, h⟩ := Option.bind_eq_some_iff.mp h
  have hlen := redactLoop_length hfit (fun _ _ _ => Nat.zero_le _)
    (show ([] : Bytes).length ≤ 0 from Nat.le_refl 0) hloop
  dsimp only at h
  split at h
  · cases h
  · obtain ⟨rest, hrest, h⟩ := Option.bind_eq_some_iff.mp h
    obtain ⟨hle, -, hrestlen⟩ := slice_length hrest
    obtain rfl : out ++ rest = redacted := by simpa using h
    rw [List.length_append]
    omega

/-! ## What a stream has charged -/

/-- The budget effects of a stream so far, what it has reserved by them and the length of its body.
Each constructor is a call of the account, with the grant the budget gave it; where `fits`, no
redaction lengthens the body. -/
inductive Charged (fits : Prop) : List Effect → Nat → Nat → Prop where
  | new : Charged fits [] 0 0
  | append {es : List Effect} {r b : Nat} (h : Charged fits es r b) (chunk room grant : Nat)
      (hchunk : 0 < chunk) (hgrant : grant ≤ chunk) :
      Charged fits (es ++ .acquired grant ::
          if min grant room < grant then [.released (grant - min grant room)] else [])
        (r + min grant room) (b + min grant room)
  | shrink {es : List Effect} {r b : Nat} (h : Charged fits es r b) (length : Nat)
      (hlength : length ≤ b) : Charged fits es r length
  | expand {es : List Effect} {r b : Nat} (h : Charged fits es r b) (length grant : Nat)
      (hlength : b < length) (hgrant : grant ≤ length - b) :
      Charged fits (es ++ [.acquired grant]) (r + grant)
        (if grant = length - b then length else b)
  | redact {es : List Effect} {r b : Nat} (h : Charged fits es r b) (length : Nat)
      (hlength : fits → length ≤ b) : Charged fits es r length
  | beginResponse {es : List Effect} {r b : Nat} (h : Charged fits es r b) :
      Charged fits (es ++ if r > 0 then [.released r] else []) 0 0

/-- Where redactions fit, the reservation covers the body. -/
theorem Charged.covered {fits : Prop} {es : List Effect} {r b : Nat} (h : Charged fits es r b)
    (hfits : fits) : b ≤ r := by
  induction h with
  | new => exact Nat.le_refl 0
  | append h chunk room grant hchunk hgrant ih => exact Nat.add_le_add_right ih _
  | shrink h length hlength ih => exact hlength.trans ih
  | expand h length grant hlength hgrant ih => split <;> omega
  | redact h length hlength ih => exact (hlength hfits).trans ih
  | beginResponse h ih => exact Nat.le_refl 0

theorem Charged.mono {fits fits' : Prop} (hfits : fits' → fits) {es : List Effect} {r b : Nat}
    (h : Charged fits es r b) : Charged fits' es r b := by
  induction h with
  | new => exact .new
  | append h chunk room grant hchunk hgrant ih => exact ih.append chunk room grant hchunk hgrant
  | shrink h length hlength ih => exact ih.shrink length hlength
  | expand h length grant hlength hgrant ih => exact ih.expand length grant hlength hgrant
  | redact h length hlength ih => exact ih.redact length fun h' => hlength (hfits h')
  | beginResponse h ih => exact ih.beginResponse

/-- The steps of one account, each with the counter it finds. -/
def Account.run (limit : Int) : Account → List (Int × Call) → List Effect × Account
  | a, [] => ([], a)
  | a, (u, call) :: turns =>
    let r := a.step limit u call
    (r.1 ++ (r.2.2.run limit turns).1, (r.2.2.run limit turns).2)

/-- Steps of an account that the budget allows: the counter is within its bounds, and no
redaction lengthens the body where redactions fit. -/
def Allowed (fits : Prop) (limit : Int) : Account → List (Int × Call) → Prop
  | _, [] => True
  | a, (u, call) :: turns =>
    (0 ≤ u ∧ u ≤ limit) ∧ (fits → Modest a call) ∧ Allowed fits limit (a.step limit u call).2.2 turns

section
variable {fits : Prop} {limit : Int}

theorem Account.run_append (a : Account) (turns more : List (Int × Call)) :
    a.run limit (turns ++ more) = ((a.run limit turns).1 ++
      ((a.run limit turns).2.run limit more).1, ((a.run limit turns).2.run limit more).2) := by
  induction turns generalizing a with
  | nil => simp [Account.run]
  | cons turn turns ih => simp [Account.run, ih, List.append_assoc]

theorem Allowed.append {a : Account} {turns more : List (Int × Call)}
    (h : Allowed fits limit a turns) (h' : Allowed fits limit (a.run limit turns).2 more) :
    Allowed fits limit a (turns ++ more) := by
  induction turns generalizing a with
  | nil => exact h'
  | cons turn turns ih => exact ⟨h.1, h.2.1, ih h.2.2 h'⟩

/-- Calls other than redactions are allowed at any value of the counter within its bounds. -/
theorem allowed_replicate {u : Int} (hu : 0 ≤ u ∧ u ≤ limit) {call : Call}
    (hcall : ∀ n, call ≠ .redact n) (k : Nat) (a : Account) :
    Allowed fits limit a (List.replicate k (u, call)) := by
  induction k generalizing a with
  | zero => exact trivial
  | succ k ih => exact ⟨hu, fun _ n hn => absurd hn (hcall n), ih _⟩

/-- The account of a stream between two calls. -/
abbrev between (r b : Nat) : Account := ⟨r, b, .ready⟩

/-- Steps of an account take it from one state between two calls to another. -/
def Follows (fits : Prop) (limit : Int) (a : Account) (es : List Effect) (a' : Account) : Prop :=
  ∃ turns, Allowed fits limit a turns ∧ a.run limit turns = (es, a')

theorem Follows.trans {a b c : Account} {es fs : List Effect} (h : Follows fits limit a es b)
    (h' : Follows fits limit b fs c) : Follows fits limit a (es ++ fs) c := by
  obtain ⟨turns, hallowed, hrun⟩ := h
  obtain ⟨more, hallowed', hrun'⟩ := h'
  refine ⟨turns ++ more, hallowed.append (by rw [hrun]; exact hallowed'), ?_⟩
  rw [Account.run_append, hrun, hrun']

/-- A call of `Acquire` that finds `grant` bytes left is given them. -/
theorem acquire_run {n grant r b : Nat} (hgrant : grant ≤ n) (use : Use) {call : Call}
    (hcall : ∀ u, (between r b).step limit u call = ([], u, ⟨r, b, .loading n use⟩)) :
    (between r b).run limit (List.replicate 3 (limit - grant, call)) =
      ([.acquired grant], ⟨r, b, .granted grant use⟩) := by
  have hload : Account.step limit (limit - grant) ⟨r, b, .loading n use⟩ call =
      ([], limit - grant, ⟨r, b, .loaded n use (limit - grant)⟩) := rfl
  have hswap : (Account.step limit (limit - grant) ⟨r, b, .loaded n use (limit - grant)⟩ call).1 =
        [.acquired grant] ∧
      (Account.step limit (limit - grant) ⟨r, b, .loaded n use (limit - grant)⟩ call).2.2 =
        ⟨r, b, .granted grant use⟩ := by
    dsimp only [Account.step]
    by_cases hzero : grant = 0
    · simp [hzero]
    · have hmin : min n (limit - (limit - (grant : Int))).toNat = grant := by omega
      rw [if_neg (by omega), if_pos rfl, hmin]
      exact ⟨rfl, rfl⟩
  simp only [List.replicate, Account.run, hcall, hload, hswap.1, hswap.2]
  rfl

theorem follows_append (hlimit : 0 < limit) (r b : Nat) {chunk grant : Nat} (room : Nat)
    (hchunk : 0 < chunk) (hgrant : grant ≤ chunk) (hmax : (grant : Int) ≤ limit) :
    Follows fits limit (between r b) (.acquired grant ::
        if min grant room < grant then [.released (grant - min grant room)] else [])
      (between (r + min grant room) (b + min grant room)) := by
  have hcall : ∀ u, (between r b).step limit u (.append chunk room) =
      ([], u, ⟨r, b, .loading chunk (.append room)⟩) := by
    intro u
    simp [Account.step, acquire_eq hlimit, hchunk.ne']
  have hu : 0 ≤ limit - (grant : Int) ∧ limit - (grant : Int) ≤ limit := by omega
  -- one more step records the grant, and another one returns what the cap rejected
  refine ⟨List.replicate 3 (limit - grant, .append chunk room) ++
    List.replicate (if min grant room < grant then 2 else 1) (limit - grant, .close),
    (allowed_replicate hu (by simp) 3 _).append (allowed_replicate hu (by simp) _ _), ?_⟩
  rw [Account.run_append, acquire_run hgrant _ hcall]
  split
  next hpart => simp [List.replicate, Account.run, Account.step, hpart]
  next hall => simp [List.replicate, Account.run, Account.step, hall]

theorem follows_expand (hlimit : 0 < limit) (r : Nat) {b length grant : Nat} (hlength : b < length)
    (hgrant : grant ≤ length - b) (hmax : (grant : Int) ≤ limit) :
    Follows fits limit (between r b) [.acquired grant]
      (between (r + grant) (if grant = length - b then length else b)) := by
  have hcall : ∀ u, (between r b).step limit u (.decode length) =
      ([], u, ⟨r, b, .loading (length - b) (.decode length)⟩) := by
    intro u
    simp [Account.step, acquire_eq hlimit, not_le.mpr hlength]
  have hu : 0 ≤ limit - (grant : Int) ∧ limit - (grant : Int) ≤ limit := by omega
  refine ⟨List.replicate 3 (limit - grant, .decode length) ++
    List.replicate 1 (limit - grant, .close),
    (allowed_replicate hu (by simp) 3 _).append (allowed_replicate hu (by simp) _ _), ?_⟩
  rw [Account.run_append, acquire_run hgrant _ hcall]
  rfl

theorem follows_beginResponse (hlimit : 0 < limit) (r b : Nat) :
    Follows fits limit (between r b) (if r > 0 then [.released r] else []) (between 0 0) := by
  have hu : 0 ≤ limit ∧ limit ≤ limit := by omega
  refine ⟨List.replicate (if r > 0 then 2 else 1) (limit, .beginResponse),
    allowed_replicate hu (by simp) _ _, ?_⟩
  by_cases hr : r > 0
  · simp [List.replicate, Account.run, Account.step, hr]
  · obtain rfl : r = 0 := by omega
    simp [Account.run, Account.step]

/-- An account can follow a stream: whatever a stream has charged, with grants the limit allows,
the steps of an account can charge. -/
theorem Charged.followed (hlimit : 0 < limit) {es : List Effect} {r b : Nat}
    (h : Charged fits es r b) (hmax : ∀ g : Nat, .acquired g ∈ es → (g : Int) ≤ limit) :
    Follows fits limit {} es (between r b) := by
  induction h with
  | new => exact ⟨[], trivial, rfl⟩
  | append h chunk room grant hchunk hgrant ih =>
    exact (ih fun g hg => hmax g (List.mem_append_left _ hg)).trans
      (follows_append hlimit _ _ room hchunk hgrant (hmax grant (by simp)))
  | @shrink es r b h length hlength ih =>
    have hstep : Follows fits limit (between r b) [] (between r length) := by
      refine ⟨[(limit, .decode length)], ⟨⟨hlimit.le, Int.le_refl _⟩, fun _ _ hn => (nomatch hn), trivial⟩, ?_⟩
      simp [Account.run, Account.step, hlength]
    simpa using (ih hmax).trans hstep
  | expand h length grant hlength hgrant ih =>
    exact (ih fun g hg => hmax g (List.mem_append_left _ hg)).trans
      (follows_expand hlimit _ hlength hgrant (hmax grant (by simp)))
  | @redact es r b h length hlength ih =>
    have hstep : Follows fits limit (between r b) [] (between r length) := by
      refine ⟨[(limit, .redact length)], ⟨⟨hlimit.le, Int.le_refl _⟩, ?_, trivial⟩, rfl⟩
      intro hfits n hn _
      obtain rfl := Call.redact.inj hn
      exact hlength hfits
    simpa using (ih hmax).trans hstep
  | beginResponse h ih =>
    exact (ih fun g hg => hmax g (List.mem_append_left _ hg)).trans
      (follows_beginResponse hlimit _ _)

end

/-! ## The points of a stream -/

/-- The transaction an effect shows: the one a pipeline or a stage finds when it starts. -/
def shown : Effect → Option Transaction
  | .started _ tx | .ran _ tx => some tx
  | _ => none

theorem shown_of_budget {e : Effect} (h : e.ofBudget = true) : shown e = none := by
  cases e with
  | acquired n => rfl
  | released n => rfl
  | started name tx => cases h
  | ran name tx => cases h
  | finished phase d => cases h
  | audited ev => cases h

/-- The transaction `tx` was the stream's when its effects were `es`: when a pipeline or a stage
started, or now. -/
def At (st : Exec) (tx : Transaction) (es : List Effect) : Prop :=
  (tx = st.tx ∧ es = st.log) ∨ ∃ e post, st.log = es ++ e :: post ∧ shown e = some tx

/-- The redactions fit in all bodies that the check of a blocking policy has found. -/
def RedactionsFit (detector : Option Detector) (es : List Effect) : Prop :=
  ∀ tx, .ran Config.stageBodyChecks tx ∈ es → ∀ det p dlp, detector = some det →
    tx.policy = some p → p.blocking = true → p.checks.dlp = some dlp →
      MasksFit dlp.redact (det.matches tx.body)

theorem RedactionsFit.subset {detector : Option Detector} {es fs : List Effect}
    (h : RedactionsFit detector fs) (hsub : es ⊆ fs) : RedactionsFit detector es := by
  intro tx hran
  exact h tx (hsub hran)

/-- At one of its points a stream has the reservation and the body it has charged. -/
def Sound (detector : Option Detector) (tx : Transaction) (es : List Effect) : Prop :=
  Charged (RedactionsFit detector es) (es.filter Effect.ofBudget) tx.bodyReserved tx.body.length

section
variable {detector : Option Detector} {a b st : Exec}

/-- A stream that is sound, now and at all points before. -/
structure Booked (detector : Option Detector) (st : Exec) : Prop where
  sound : Sound detector st.tx st.log
  before : ∀ es e post tx, st.log = es ++ e :: post → shown e = some tx → Sound detector tx es

theorem Booked.at (h : Booked detector st) {tx : Transaction} {es : List Effect}
    (hat : At st tx es) : Sound detector tx es := by
  rcases hat with ⟨rfl, rfl⟩ | ⟨e, post, hlog, he⟩
  · exact h.sound
  · exact h.before es e post tx hlog he

/-- An effect that shows nothing, or the transaction of the stream. -/
theorem Booked.emit (h : Booked detector st) {e : Effect} (hb : e.ofBudget = false)
    (he : shown e = none ∨ shown e = some st.tx) : Booked detector (st.emit e) := by
  refine ⟨?_, ?_⟩
  · rw [Sound, Exec.emit_log, List.filter_append, List.filter_cons_of_neg (by simp [hb]),
      List.filter_nil, List.append_nil]
    exact h.sound.mono fun hfit => hfit.subset (List.subset_append_left _ _)
  · intro es f post tx hlog hf
    rcases List.eq_nil_or_concat post with rfl | ⟨post', g, rfl⟩
    · -- the effect that was emitted
      obtain ⟨hes, hfe⟩ := List.append_inj' (show st.log ++ [e] = es ++ [f] from hlog) rfl
      obtain rfl : e = f := by simpa using hfe
      rcases he with he | he
      · cases he.symm.trans hf
      · obtain rfl := Option.some.inj (he.symm.trans hf)
        exact hes ▸ h.sound
    · rw [List.concat_eq_append, Exec.emit_log, ← List.cons_append, ← List.append_assoc] at hlog
      obtain ⟨hlog', -⟩ := List.append_inj' hlog rfl
      exact h.before es f post' tx hlog' hf

/-- The budget was charged, or the body written. -/
theorem Booked.charge (h : Booked detector a) {es : List Effect} (hlog : b.log = a.log ++ es)
    (hes : ∀ e ∈ es, e.ofBudget = true)
    (hc : Charged (RedactionsFit detector a.log) (a.log.filter Effect.ofBudget ++ es)
      b.tx.bodyReserved b.tx.body.length) : Booked detector b := by
  refine ⟨?_, ?_⟩
  · rw [Sound, hlog, List.filter_append, List.filter_eq_self.mpr hes]
    exact hc.mono fun hfit => hfit.subset (List.subset_append_left _ _)
  · intro fs f post tx hsplit hf
    -- an effect that shows a transaction is none of the budget
    have hmem : f ∉ es := by
      intro hmem
      rw [shown_of_budget (hes f hmem)] at hf
      cases hf
    rw [hlog] at hsplit
    rcases List.append_eq_append_iff.mp hsplit with ⟨cs, hfs, hcs⟩ | ⟨cs, hlog', hcs⟩
    · exact absurd (by rw [hcs]; simp) hmem
    · cases cs with
      | nil => exact absurd (by rw [← List.nil_append es, ← hcs]; simp) hmem
      | cons g cs =>
        obtain ⟨rfl, -⟩ := List.cons.inj hcs
        exact h.before fs f cs tx hlog' hf

/-- Nothing was charged, and the body may be another one. -/
theorem Booked.hold (h : Booked detector a) (hlog : b.log = a.log)
    (hc : Charged (RedactionsFit detector a.log) (a.log.filter Effect.ofBudget) b.tx.bodyReserved
      b.tx.body.length) : Booked detector b := by
  refine h.charge (by rw [hlog, List.append_nil]) (by simp) ?_
  rw [List.append_nil]
  exact hc

/-- Events and finished phases show nothing. -/
theorem Booked.note (h : Booked detector a) {es : List Effect}
    (hes : ∀ e ∈ es, e.ofBudget = false ∧ shown e = none) (hlog : b.log = a.log ++ es)
    (hr : b.tx.bodyReserved = a.tx.bodyReserved) (hb : b.tx.body = a.tx.body) :
    Booked detector b := by
  have hall : ∀ (fs : List Effect) (st : Exec), Booked detector st →
      (∀ e ∈ fs, e.ofBudget = false ∧ shown e = none) →
      Booked detector { st with log := st.log ++ fs } := by
    intro fs
    induction fs with
    | nil =>
      intro st hst _
      rw [List.append_nil]
      exact hst
    | cons e fs ih =>
      intro st hst hfs
      obtain ⟨he, hfs⟩ := List.forall_mem_cons.mp hfs
      have hstep := ih (st.emit e) (hst.emit he.1 (.inl he.2)) hfs
      rw [Exec.emit_log, List.append_assoc] at hstep
      exact hstep
  have hst := hall es a h hes
  refine hst.hold hlog ?_
  rw [hr, hb]
  exact hst.sound

/-! ## The parts of a handler -/

/-- What a transaction stores of a chunk. -/
theorem appendBody_stored (tx : Transaction) (chunk : Bytes) (max : Int) : ∃ room body,
    (tx.appendBody chunk max).1 = min chunk.length room ∧
      (tx.appendBody chunk max).2.2 = { tx with body } ∧
      body.length = tx.body.length + min chunk.length room := by
  unfold Transaction.appendBody
  split
  · exact ⟨0, tx.body, by simp, rfl, by simp⟩
  dsimp only
  split
  · exact ⟨0, tx.body, by simp, rfl, by simp⟩
  split
  · refine ⟨(max - tx.body.length).toNat, _, ?_, rfl, ?_⟩
    · show (max - tx.body.length).toNat = _
      omega
    · rw [List.length_append, List.length_take]
      omega
  · exact ⟨chunk.length, _, by simp, rfl, by simp⟩

theorem appendBody_booked (h : Booked detector st) (pr : Processor) (w : World)
    (dir : Direction) (chunk : Bytes) : Booked detector (pr.appendBody w dir chunk st) := by
  unfold Processor.appendBody
  split
  · exact h
  next hne =>
    have hgrant := w.grant_le st.tick chunk.length
    obtain ⟨g, hg⟩ : ∃ g, w.grant st.tick chunk.length = g := ⟨_, rfl⟩
    rw [hg] at hgrant ⊢
    obtain ⟨room, body, hstored, htx, hlen⟩ :=
      appendBody_stored st.tx (chunk.take g) (pr.bodyLimit st.tx dir)
    obtain ⟨⟨stored, truncated, tx⟩, happ⟩ : ∃ r,
      st.tx.appendBody (chunk.take g) (pr.bodyLimit st.tx dir) = r := ⟨_, rfl⟩
    have htake : (chunk.take g).length = g := by
      rw [List.length_take]
      omega
    rw [happ, htake] at hstored
    rw [happ] at htx
    dsimp only at hstored htx
    rw [htake] at hlen
    subst hstored htx
    have hcharged := h.sound.append chunk.length room g (List.length_pos_iff.mpr hne) hgrant
    have hfinish : ∀ b : Exec, b.log = st.log ++ .acquired g ::
          (if min g room < g then [.released (g - min g room)] else []) →
        b.tx.bodyReserved = st.tx.bodyReserved + min g room → b.tx.body.length = body.length →
        Booked detector b := by
      intro b hlog hr hb
      refine h.charge hlog ?_ ?_
      · intro e he
        rcases List.mem_cons.mp he with rfl | he
        · rfl
        · split at he
          · rw [List.mem_singleton.mp he]
            rfl
          · cases he
      · rw [hr, hb, hlen]
        exact hcharged
    simp only [Exec.emit_tx, Exec.next_tx, happ]
    by_cases hpos : 0 < g
    · by_cases hpart : min g room < g
      · split <;> refine hfinish _ ?_ ?_ ?_ <;> simp [hpart]
      · split <;> refine hfinish _ ?_ ?_ ?_ <;> simp [hpart]
    · -- nothing was granted, and nothing is stored
      obtain rfl : g = 0 := by omega
      have hsame : st.tx.body.length = body.length := by
        rw [hlen, Nat.zero_min, Nat.add_zero]
      split <;> refine hfinish _ ?_ ?_ ?_ <;> simp [hsame]

theorem beginResponse_booked (h : Booked detector st) :
    Booked detector (beginResponse st) := by
  have hcharged := h.sound.beginResponse
  unfold beginResponse
  dsimp only
  split
  next hpos =>
    rw [if_pos hpos] at hcharged
    exact h.charge rfl (by simp [Effect.ofBudget]) hcharged
  next hzero =>
    rw [if_neg hzero, List.append_nil] at hcharged
    refine h.hold rfl ?_
    show Charged _ _ st.tx.bodyReserved 0
    rwa [show st.tx.bodyReserved = 0 by omega]

theorem finish_booked (h : Booked detector st) (pr : Processor) (w : World)
    (phase : Audit.Phase) (d : Decision) : Booked detector (pr.finish w phase d st) := by
  refine h.note ?_ (finish_log pr w phase d st)
    (finish_keeps Transaction.bodyReserved (fun _ => rfl) ..)
    (finish_keeps Transaction.body (fun _ => rfl) ..)
  intro e he
  rcases List.mem_cons.mp he with rfl | he
  · exact ⟨rfl, rfl⟩
  · obtain ⟨f, -, rfl⟩ := List.mem_map.mp he
    exact ⟨rfl, rfl⟩

theorem headerFindings_booked (h : Booked detector st) (pr : Processor) (w : World)
    (phase : Audit.Phase) (d : Decision) :
    Booked detector (headerFindings pr w phase d st) := by
  unfold headerFindings
  split
  · obtain ⟨tick, -, heq⟩ := emitAudit_spec pr w phase d st
    unfold Processor.emitPhaseFindings
    rw [heq]
    refine h.note ?_ rfl rfl rfl
    intro e he
    obtain ⟨f, -, rfl⟩ := List.mem_map.mp he
    exact ⟨rfl, rfl⟩
  · exact h

/-! ## Stages -/

/-- What the stages of a pipeline keep booked, its run does. -/
theorem run_booked {R : Exec → Exec → Prop} {p : Pipeline} (hp : ∀ s ∈ p.stages, Within R s)
    {w : World} {ctx : Ctx} (hs : ∀ s ∈ p.stages, ∀ st, Booked detector st →
      .ran s.name st.tx ∈ st.log → Booked detector (s.process w ctx st).2)
    (h : Booked detector st) : Booked detector (p.run w ctx st).2 := by
  refine stages_invariant (I := Booked detector) hp
    (fun _ ht => ht.hold rfl ht.sound)
    (fun _ _ _ ht => ht.hold rfl ht.sound) ?_ ?_
  · intro s hmem t ht _
    exact hs s hmem _ (ht.emit rfl (.inr rfl)) (by simp)
  · have hstart := h.emit (e := .started p.name st.tx) rfl (.inr rfl)
    exact hstart.hold rfl hstart.sound

theorem runEngines_booked (h : Booked detector st) (inspect : EngineSet → Ctx → Engine.Request →
    Nat → Option (Verdict × List Bytes) × Nat) (ctx : Ctx) :
    Booked detector (runEngines inspect ctx st).2 := by
  obtain ⟨-, score, denied, tick, heq⟩ := runEngines_spec inspect ctx st
  rw [heq]
  exact h.hold rfl h.sound

variable [Library]

theorem decodeInto_booked (h : Booked detector st) (w : World) (enc : Bytes) :
    Booked detector (decodeInto w enc st).2 := by
  unfold decodeInto
  split
  · exact h
  next decoded _ =>
    by_cases hle : decoded.length ≤ st.tx.body.length
    · -- nothing is to be reserved
      have hres : reserveBody w (decoded.length - st.tx.body.length) st = (true, st) := by
        rw [reserveBody, if_pos (by omega)]
      rw [hres]
      exact h.hold rfl (h.sound.shrink _ hle)
    · have hne : ¬ decoded.length - st.tx.body.length = 0 := by omega
      have hgrant := w.grant_le st.tick (decoded.length - st.tx.body.length)
      have hcharged := h.sound.expand decoded.length _ (by omega) hgrant
      unfold reserveBody
      rw [if_neg hne]
      dsimp only
      split
      next t hres =>
        obtain ⟨hshort, rfl⟩ := Prod.mk.inj hres
        rw [if_neg (of_decide_eq_false hshort)] at hcharged
        exact h.charge rfl (by simp [Effect.ofBudget]) hcharged
      next t hres =>
        obtain ⟨hfull, rfl⟩ := Prod.mk.inj hres
        rw [if_pos (of_decide_eq_true hfull)] at hcharged
        exact h.charge rfl (by simp [Effect.ofBudget]) hcharged

theorem bodyContentDecode_booked (h : Booked detector st) (w : World) (ctx : Ctx) :
    Booked detector (bodyContentDecode.process w ctx st).2 := by
  unfold bodyContentDecode
  dsimp only
  split
  · exact h
  split
  · exact h
  split
  · exact h
  split
  · exact h
  split
  · exact h
  split
  · exact h
  · exact decodeInto_booked h w _

theorem bodyChecks_booked (h : Booked detector st) (w : World) (ctx : Ctx)
    (hran : .ran Config.stageBodyChecks st.tx ∈ st.log) :
    Booked detector ((bodyChecks detector).process w ctx st).2 := by
  obtain ⟨-, heq | ⟨p, body, hp, hblock, ⟨det, dlp, hdet, hdlp, -, hred⟩, heq⟩⟩ :=
    bodyChecks_spec detector w ctx st <;> rw [heq]
  · exact h
  · refine h.hold rfl (h.sound.redact _ fun hfit => ?_)
    exact redactBody_length (hfit st.tx hran det p dlp hdet hp hblock hdlp) hred

/-- The stages of the pipelines of a policy. -/
theorem inspector_booked {pr : Processor} {p : CompiledPolicy} {pp : PolicyPipelines}
    (hpp : pr.policyPipelines p = .ok pp) (phase : Audit.Phase) {s : Stage}
    (hs : s ∈ (phasePipeline pp phase).stages) (w : World) (ctx : Ctx)
    (h : Booked pr.deps.detector st) (hran : .ran s.name st.tx ∈ st.log) :
    Booked pr.deps.detector (s.process w ctx st).2 := by
  have hheader : ∀ dir, s ∈ (pp.header dir).stages →
      Booked pr.deps.detector (s.process w ctx st).2 := by
    intro dir hmem
    rcases (buildPolicyPipelines_spec hpp dir).1.mem hmem with rfl | rfl | rfl
    · exact h
    · exact runEngines_booked h _ ctx
    · obtain ⟨-, required, waf, heq⟩ := bodyGate_spec w ctx st
      rw [heq]
      exact h.hold rfl h.sound
  have hbody : ∀ dir, s ∈ (pp.body dir).stages →
      Booked pr.deps.detector (s.process w ctx st).2 := by
    intro dir hmem
    obtain ⟨body, hst, hrest⟩ := (buildPolicyPipelines_spec hpp dir).2.stages
    rw [hst, List.mem_cons, List.mem_cons] at hmem
    rcases hmem with rfl | rfl | hmem
    · exact h
    · exact bodyContentDecode_booked h w ctx
    · rcases hrest s hmem with rfl | rfl
      · exact bodyChecks_booked h w ctx hran
      · exact runEngines_booked h _ ctx
  cases phase with
  | requestHeaders => exact hheader .request hs
  | requestBody => exact hbody .request hs
  | responseHeaders => exact hheader .response hs
  | responseBody => exact hbody .response hs

/-! ## Streams -/

/-- The rule of handlers for the budget. -/
theorem booked_phased (pr : Processor) (w : World) :
    Phased pr w (fun _ => True) (Booked pr.deps.detector) (Booked pr.deps.detector)
      (Booked pr.deps.detector) (fun _ => Booked pr.deps.detector) where
  received st attributes h := h.hold rfl h.sound
  request st hs h _ _ d t hrun := by
    obtain ⟨requestID, htx⟩ := loadRequest_spec w hs st
    have hload : Booked pr.deps.detector (Processor.loadRequest w hs st) := by
      refine h.hold (loadRequest_log w hs st) ?_
      rw [htx]
      exact h.sound
    have hprelude : Booked pr.deps.detector (preludeOf pr w hs st).2 := by
      refine run_booked (requestPrelude_within pr.deps) ?_ hload
      intro s hmem t ht _
      have hrel := (requestPrelude_within pr.deps s hmem).rel w w.ctx t
      refine ht.hold (requestPrelude_stage_log hmem w w.ctx t) ?_
      rw [hrel.bodyReserved, hrel.body]
      exact ht.sound
    rw [hrun] at hprelude
    exact ⟨hprelude, hprelude⟩
  response st hs h d t hrun := by
    have hload : Booked pr.deps.detector (loadResponse hs st) :=
      (beginResponse_booked h).hold rfl (beginResponse_booked h).sound
    have hprelude : Booked pr.deps.detector
        ((responsePrelude pr.deps).run w w.ctx (loadResponse hs st)).2 := by
      refine run_booked (responsePrelude_within pr.deps) ?_ hload
      intro s hmem t ht _
      obtain rfl := List.mem_singleton.mp hmem
      obtain ⟨_, _, _, _, _, heq⟩ := initContext_spec pr.deps.trustedHops t.tx
      show Booked pr.deps.detector (t.setTx (initContext pr.deps.trustedHops t.tx))
      rw [heq]
      exact ht.hold rfl ht.sound
    rw [hrun] at hprelude
    exact ⟨hprelude, hprelude⟩
  body st p h _ := h.hold rfl h.sound
  phase p phase a d t h hp _ hrun := by
    cases hrun with
    | unbuilt e build decision state => exact state ▸ h
    | ran pp build run =>
      have hbooked := run_booked (phasePipeline_inspector build phase)
        (fun s hs st hst hran =>
          inspector_booked build phase hs w (Processor.inspectCtx w a) hst hran) h
      rw [← Processor.runInspect, run] at hbooked
      exact hbooked
  passed phase d t h _ := headerFindings_booked h pr w phase d
  buffered dir chunk st h := by
    have hopen : Booked pr.deps.detector (st.setTx (Processor.reopen chunk st.tx)) := by
      rw [reopen_eq]
      exact h.hold rfl h.sound
    exact appendBody_booked hopen pr w dir chunk
  finish phase d t h := finish_booked h pr w phase d
  done _ h := h

/-- Every stream is sound at every point. -/
theorem stream_booked (pr : Processor) (w : World) (snap : Snapshot) (msgs : List Message) :
    Booked pr.deps.detector (runFrom (pr.handle w) (pr.newStream snap) msgs) := by
  have hstart : Booked pr.deps.detector (pr.newStream snap) :=
    ⟨.new, fun es e post tx hlog _ => absurd hlog (by simp [Processor.newStream])⟩
  refine runFrom_invariant ?_ hstart
  intro msg _ st hst
  exact ((booked_phased pr w).handle hst (fun _ _ _ => trivial)).1

end

/-! ## All streams -/

/-- The bytes of its body a stream has resident: none once it has ended. -/
def Account.resident (a : Account) : Nat :=
  match a.point with
  | .resetting | .closed => 0
  | _ => a.body

theorem resident_le_held {a : Account} (h : a.Covered True) : (a.resident : Int) ≤ a.held := by
  obtain ⟨r, b, p⟩ := a
  have hlive : (True → b ≤ r) → (b : Int) ≤ r := fun h => Int.ofNat_le.mpr (h trivial)
  cases p with
  | ready => simpa [Account.resident] using hlive h
  | loading n use => simpa [Account.resident] using hlive h
  | loaded n use cur => simpa [Account.resident] using hlive h
  | granted grant use =>
    have hle := hlive h
    show (b : Int) ≤ r + grant
    omega
  | returning n =>
    have hle := hlive h
    show (b : Int) ≤ r + n
    omega
  | zeroing =>
    have hzero : b = 0 := h
    simp [Account.resident, hzero]
  | resetting => simp [Account.resident]
  | closed => simp [Account.resident]

/-- The events of the steps `moves` of streams that share a budget. -/
abbrev budgetTrace {ι : Type} [DecidableEq ι] (limit : Int) (moves : List (ι × Call)) :=
  trace (Shared.turn (Account.step limit)) (newBudget ι) moves

theorem resident_le_limit {ι : Type} [DecidableEq ι] [Fintype ι] {limit : Int} (hlimit : 0 < limit)
    {moves : List (ι × Call)}
    (hmodest : ∀ e ∈ budgetTrace limit moves, Modest (e.before.clients e.input.1) e.input.2) :
    ∀ e ∈ budgetTrace limit moves, ∑ i, ((e.after.clients i).resident : Int) ≤ limit := by
  let I (s : Shared ι Account) : Prop :=
    s.counter ≤ limit ∧ s.Balanced Account.held ∧ ∀ i, (s.clients i).Covered True
  have hnew : I (newBudget ι) := by
    refine ⟨hlimit.le, ?_, fun _ _ => Nat.le_refl 0⟩
    simp [Shared.Balanced, newBudget]
  refine trace_invariant (I := I) ?_ hnew hmodest
  rintro s ⟨i, call⟩ ⟨hle, hbalanced, hcovered⟩ hm
  have hnext : I (Shared.turn (Account.step limit) s (i, call)).2 :=
    ⟨Account.step_le hlimit hle (s.clients i) call,
      hbalanced.run (fun u a call => a.step_held hlimit u call) [(i, call)],
      turn_covered hlimit hcovered fun _ => hm⟩
  refine ⟨?_, hnext⟩
  calc ∑ j, (((Shared.turn (Account.step limit) s (i, call)).2.clients j).resident : Int)
      ≤ ∑ j, ((Shared.turn (Account.step limit) s (i, call)).2.clients j).held :=
        Finset.sum_le_sum fun j _ => resident_le_held (hnext.2.2 j)
    _ = (Shared.turn (Account.step limit) s (i, call)).2.counter := hnext.2.1.symm
    _ ≤ limit := hnext.1

/-- Where all redactions fit, the body of a stream is at every point covered by its reservation,
and an account can follow the stream by steps none of which lengthens the body uncharged; where
the steps of all streams are such steps, the bodies resident never exceed the limit. -/
theorem resident_bodies_within_budget [Library] {ι : Type} [DecidableEq ι] [Fintype ι]
    {limit : Int} (hlimit : 0 < limit) :
    (∀ (pr : Processor) (w : World) (snap : Snapshot) (msgs : List Message) (tx : Transaction)
      (es : List Effect), At (runFrom (pr.handle w) (pr.newStream snap) msgs) tx es →
      RedactionsFit pr.deps.detector es → tx.body.length ≤ tx.bodyReserved ∧
        ((∀ g : Nat, .acquired g ∈ es → (g : Int) ≤ limit) → Follows True limit {}
          (es.filter Effect.ofBudget) (between tx.bodyReserved tx.body.length))) ∧
    ∀ moves : List (ι × Call),
      (∀ e ∈ budgetTrace limit moves, Modest (e.before.clients e.input.1) e.input.2) →
      ∀ e ∈ budgetTrace limit moves, ∑ i, ((e.after.clients i).resident : Int) ≤ limit := by
  refine ⟨?_, fun moves hmodest => resident_le_limit hlimit hmodest⟩
  intro pr w snap msgs tx es hat hfit
  have hcharged := (stream_booked pr w snap msgs).at hat
  refine ⟨hcharged.covered hfit, fun hmax => ?_⟩
  refine (hcharged.mono fun _ => hfit).followed hlimit fun g hg => ?_
  exact hmax g (List.mem_of_mem_filter hg)

/-! ## Addresses -/

/-- The processor of a server, with the built-in detector. -/
def addressProcessor : Processor :=
  newProcessor { defaultAllow := true, detector := some (Sensitive.new Sensitive.insertionSort) }
    false [] [] 0

def addressPolicy : CompiledPolicy :=
  { plainPolicy with
    inspectRequestBody := true
    checks := { dlp := some ⟨true, false, [], [ascii "email"]⟩ } }

/-- A stream whose request has the body `address`. -/
def addressStream (address : Bytes) : Exec :=
  let _ := Library.nothing
  runFrom (addressProcessor.handle World.quiet)
    (addressProcessor.newStream (catchAllSnapshot addressPolicy))
    [.requestHeaders [] { getRequest [] with endOfStream := false }, .requestBody ⟨address, true⟩]

/-- A short address is replaced by a longer tag that is not charged: 16 bytes for which 6 are
reserved, more than a limit of 10 allows. -/
theorem short_address_exceeds_reservation :
    let st := addressStream (ascii "a@b.co")
    let moves := List.replicate 4 ((), .append st.tx.bodyReserved 100) ++
      [((), .redact st.tx.body.length)]
    At st st.tx st.log ∧ st.tx.bodyReserved < st.tx.body.length ∧
      ∃ e ∈ budgetTrace 10 moves, 10 < ∑ i, ((e.after.clients i).resident : Int) := by
  intro st moves
  have hbooked : st.tx.bodyReserved = 6 ∧ st.tx.body.length = 16 := by decide +kernel
  refine ⟨.inl ⟨rfl, rfl⟩, by omega, ?_⟩
  have hmoves : moves = List.replicate 4 ((), .append 6 100) ++ [((), .redact 16)] := by
    rw [← hbooked.1, ← hbooked.2]
  rw [hmoves, budgetTrace, trace_append]
  refine ⟨_, List.mem_append_right _ List.mem_cons_self, ?_⟩
  decide +kernel

/-- A run of body_checks is on this body. -/
def checkedOn (body : Bytes) : Effect → Bool
  | .ran name tx => name ≠ Config.stageBodyChecks || tx.body = body
  | _ => true

theorem long_address_within_budget :
    let st := addressStream (ascii "alice@example.com")
    st.tx.body = ascii "[REDACTED:email]" ∧ st.tx.body.length ≤ st.tx.bodyReserved := by
  let _ := Library.nothing
  intro st
  have hchecked : st.log.all (checkedOn (ascii "alice@example.com")) = true := by decide +kernel
  -- the one match is the address, which is longer than its tag
  have hmatches : (Sensitive.new Sensitive.insertionSort).matches (ascii "alice@example.com") =
      [⟨0, 17, ascii "email"⟩] := by decide +kernel
  have hfit : RedactionsFit addressProcessor.deps.detector st.log := by
    intro tx hran det p dlp hdet _ _ _
    obtain rfl := Option.some.inj hdet
    have hbody : tx.body = ascii "alice@example.com" := by
      simpa [checkedOn] using List.all_eq_true.mp hchecked _ hran
    rw [hbody, hmatches]
    refine ⟨(List.pairwise_singleton _ _).filter _, ?_⟩
    intro m hm _ _
    obtain rfl := List.mem_singleton.mp hm
    decide
  refine ⟨by decide +kernel, ?_⟩
  exact ((resident_bodies_within_budget (ι := Unit) (by decide : (0 : Int) < 1)).1 addressProcessor
    World.quiet _ _ st.tx st.log (.inl ⟨rfl, rfl⟩) hfit).1

end ElchiShield.Extproc
