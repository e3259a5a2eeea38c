import ElchiShield.Stages.Precheck

/-! # The address of the client

Every proxy appends to X-Forwarded-For the address it was called from. The shield counts the
trusted ones from the right, so that what a client writes in front of them has no say. -/
namespace ElchiShield.Stages
open ElchiShield.Go ElchiShield.Pipeline

/-- The value the trusted proxies have made of what the client sent, if it sent anything. -/
def Appended (tokens : List Bytes) (v : Bytes) : Prop :=
  v = join (ascii ",") tokens ∨ ∃ sent, v = sent ++ ascii "," ++ join (ascii ",") tokens

theorem canonIP_nil : canonIP [] = [] := if_pos rfl

theorem Appended.splitOn {tokens : List Bytes} {v : Bytes} (h : Appended tokens v)
    (hne : tokens ≠ []) (hcomma : ∀ t ∈ tokens, ch ',' ∉ t) :
    ∃ sent, v.splitOn (ch ',') = sent ++ tokens := by
  have htokens : (join (ascii ",") tokens).splitOn (ch ',') = tokens :=
    List.splitOn_intercalate (ch ',') hcomma hne
  rcases h with rfl | ⟨sent, rfl⟩
  · exact ⟨[], htokens⟩
  · refine ⟨sent.splitOn (ch ','), ?_⟩
    have hcut : sent ++ ascii "," ++ join (ascii ",") tokens =
        sent ++ ch ',' :: join (ascii ",") tokens := by
      rw [List.append_assoc]
      rfl
    rw [hcut, List.splitOn_append_cons_self, htokens]

/-- The entry as many places from the right as there are proxies after the first. -/
theorem forwardedFor_eq {v t : Bytes} {sent rest : List Bytes}
    (h : v.splitOn (ch ',') = sent ++ t :: rest) : forwardedFor v (rest.length : Int) = t := by
  have hindex : (sent ++ t :: rest).length - 1 - rest.length = sent.length := by
    simp only [List.length_append, List.length_cons]
    omega
  unfold forwardedFor
  simp only [h, Int.toNat_natCast, hindex]
  simp

variable [Library] in
/-- Whatever the client sent in front, and whatever it claims in X-Real-IP, its address is the
one the first trusted proxy has seen. -/
theorem clientIP_not_spoofed (n : Nat) (t : Bytes) (rest : List Bytes)
    (hn : rest.length = n)
    (htokens : ∀ s ∈ t :: rest, ch ',' ∉ s ∧ canonIP (trimSpace s) ≠ []) (v : Bytes)
    (hv : Appended (t :: rest) v) (tx : Transaction)
    (hheader : tx.header (ascii "x-forwarded-for") = some v) :
    clientIP tx n = canonIP (trimSpace t) ∧
      (tx.direction = .request → tx.sourceIP = [] →
        (initContext n tx).sourceIP = canonIP (trimSpace t)) := by
  subst hn
  obtain ⟨sent, hsplit⟩ :=
    hv.splitOn (List.cons_ne_nil _ _) fun s hs => (htokens s hs).1
  have htoken : canonIP (trimSpace t) ≠ [] := (htokens t List.mem_cons_self).2
  have hne : v ≠ [] := by
    rintro rfl
    have hmem : t ∈ [([] : Bytes)] := by
      rw [← List.splitOn_nil (ch ','), hsplit]
      simp
    rw [List.mem_singleton.mp hmem] at htoken
    exact htoken canonIP_nil
  have hip : ∀ tx' : Transaction, tx'.headers = tx.headers →
      clientIP tx' rest.length = canonIP (trimSpace t) := by
    intro tx' hsame
    have hheader' : tx'.header (ascii "x-forwarded-for") = some v := by
      rw [← hheader, Transaction.header, Transaction.header, hsame]
    unfold clientIP
    simp only [hheader', if_neg hne, forwardedFor_eq hsplit, if_pos htoken]
  refine ⟨hip tx rfl, ?_⟩
  intro hdir hip0
  unfold initContext
  simp only [hdir, hip0, if_true]
  exact hip _ rfl

/-- A client behind one trusted proxy sends an address of its own in both headers. -/
def spoofing : Transaction :=
  { headers :=
      [⟨ascii "X-Forwarded-For", ascii "192.0.2.1, ,x, 203.0.113.7,192.0.2.1"⟩,
        ⟨ascii "X-Real-IP", ascii "192.0.2.1"⟩] }

theorem spoofed_hop_is_ignored :
    let _ := Library.nothing
    clientIP spoofing 1 = ascii "203.0.113.7" := by
  intro lib
  have htokens : ∀ s ∈ [ascii " 203.0.113.7", ascii "192.0.2.1"],
      ch ',' ∉ s ∧ canonIP (trimSpace s) ≠ [] := by
    decide +kernel
  have hv : Appended [ascii " 203.0.113.7", ascii "192.0.2.1"]
      (ascii "192.0.2.1, ,x, 203.0.113.7,192.0.2.1") :=
    .inr ⟨ascii "192.0.2.1, ,x", by decide⟩
  have hip := (clientIP_not_spoofed 1 (ascii " 203.0.113.7") [ascii "192.0.2.1"] rfl htokens
    _ hv spoofing (by decide +kernel)).1
  exact hip.trans (by decide +kernel)

end ElchiShield.Stages
