import ElchiShield.Engine.Xfcc

/-! # Which element of an XFCC header is trusted

Envoy appends the element of the verified peer to what the client sent. The engine may
trust the last element only where the split sees Envoy's comma, that is, where the
client's part leaves no quote open. -/
namespace ElchiShield.Xfcc
open ElchiShield.Go ElchiShield.Lib ElchiShield.Engine

def quoting : Quoting UInt8 := ⟨dquote, backslash, by decide⟩

/-! ## The loops of the source are the scanner's -/

def modeOf (inQuote : Bool) : Mode := if inQuote then .inside else .outside

theorem step_dquote (inQuote : Bool) :
    quoting.step (modeOf inQuote) dquote = modeOf (!inQuote) := by
  cases inQuote <;> decide

theorem step_plain {inQuote : Bool} {c : UInt8} (hq : c ≠ dquote)
    (hb : ¬ (inQuote = true ∧ c = backslash)) :
    quoting.step (modeOf inQuote) c = modeOf inQuote := by
  cases inQuote with
  | false => simp [modeOf, Quoting.step, quoting, hq]
  | true =>
    have hc : c ≠ backslash := fun h => hb ⟨rfl, h⟩
    simp [modeOf, Quoting.step, quoting, hq, hc]

theorem modeOf_eq_outside (inQuote : Bool) : modeOf inQuote = .outside ↔ (!inQuote) = true := by
  cases inQuote <;> decide

/-- A byte that does not separate joins the piece the loop is collecting. -/
theorem split_keep {sep c : UInt8} {m : Mode} (h : ¬ (m = .outside ∧ c = sep)) (cur cs : Bytes) :
    Quoting.prependHead (cur ++ [c]) (quoting.split sep (quoting.step m c) cs) =
      Quoting.prependHead cur (quoting.split sep m (c :: cs)) := by
  rw [Quoting.split, if_neg h, Quoting.prependHead_prependHead]

theorem split_cut {sep : UInt8} (cur cs : Bytes) :
    cur :: quoting.split sep .outside cs =
      Quoting.prependHead cur (quoting.split sep .outside (sep :: cs)) := by
  rw [Quoting.split, if_pos ⟨rfl, rfl⟩]
  simp [Quoting.prependHead]

theorem prependHead_nil_split (sep : UInt8) (m : Mode) (s : Bytes) :
    Quoting.prependHead [] (quoting.split sep m s) = quoting.split sep m s := by
  cases h : quoting.split sep m s with
  | nil => exact absurd h (quoting.split_ne_nil sep m s)
  | cons p ps => rfl

theorem splitTopLoop_eq {sep : UInt8} (hq : sep ≠ dquote) (inQuote : Bool) (cur s : Bytes) :
    splitTopLoop sep inQuote cur s =
      Quoting.prependHead cur (quoting.split sep (modeOf inQuote) s) := by
  induction inQuote, cur, s using splitTopLoop.induct sep with
  | case1 inQuote cur => simp [splitTopLoop, Quoting.split, Quoting.prependHead]
  | case2 inQuote cur c h =>
    obtain ⟨-, rfl, hout⟩ := h
    rw [splitTopLoop, if_pos ⟨hq, rfl, hout⟩, (modeOf_eq_outside inQuote).mpr hout, ← split_cut]
    rfl
  | case3 inQuote cur c h =>
    rw [splitTopLoop, if_neg h, ← split_keep]
    · simp [Quoting.split, Quoting.prependHead]
    · rintro ⟨hm, rfl⟩
      exact h ⟨hq, rfl, (modeOf_eq_outside inQuote).mp hm⟩
  | case4 inQuote cur c d rest h ih =>
    obtain ⟨rfl, rfl⟩ := h
    have hesc : quoting.step (modeOf true) backslash = .escaped := by decide
    rw [splitTopLoop, if_pos ⟨rfl, rfl⟩, ih, ← split_keep (by simp [modeOf]), hesc,
      ← split_keep (by simp), List.append_assoc]
    rfl
  | case5 inQuote cur d rest h ih =>
    rw [splitTopLoop, if_neg h, if_pos rfl, ih, ← step_dquote, split_keep]
    exact fun hc => hq hc.2.symm
  | case6 inQuote cur c d rest hb hc hs ih =>
    obtain ⟨rfl, hout⟩ := hs
    rw [splitTopLoop, if_neg hb, if_neg hc, if_pos ⟨rfl, hout⟩, ih, prependHead_nil_split,
      (modeOf_eq_outside inQuote).mpr hout, split_cut]
  | case7 inQuote cur c d rest hb hc hs ih =>
    have hkeep : ¬ (modeOf inQuote = .outside ∧ c = sep) :=
      fun h => hs ⟨h.2, (modeOf_eq_outside inQuote).mp h.1⟩
    rw [splitTopLoop, if_neg hb, if_neg hc, if_neg hs, ih, ← split_keep hkeep, step_plain hc hb]

theorem splitTop_eq {sep : UInt8} (hq : sep ≠ dquote) (s : Bytes) :
    splitTop s sep = quoting.split sep .outside s := by
  rw [splitTop, splitTopLoop_eq hq, prependHead_nil_split]
  rfl

theorem unescapeLoop_eq (s : Bytes) : unescapeLoop s = quoting.unescape s := by
  induction s using unescapeLoop.induct with
  | case1 => rfl
  | case2 c => rfl
  | case3 d rest ih => simp [unescapeLoop, Quoting.unescape, quoting, ih]
  | case4 c d rest h ih => simp [unescapeLoop, Quoting.unescape, quoting, h, ih]

theorem unquote_quoted (v : Bytes) : unquote (quoting.quoted v) = v := by
  have hinner : (quoting.quoted v).tail.dropLast = quoting.escape v := by
    simp [Quoting.quoted]
  have hlast : (quoting.quoted v).getLast? = some dquote :=
    List.getLast?_concat (l := dquote :: quoting.escape v)
  have hshape : ¬ ((quoting.quoted v).length < 2 ∨ (quoting.quoted v).head? ≠ some dquote ∨
      (quoting.quoted v).getLast? ≠ some dquote) := by
    rintro (hlen | hhead | hend)
    · simp only [Quoting.quoted, List.length_cons, List.length_append] at hlen
      omega
    · exact hhead rfl
    · exact hend hlast
  rw [unquote, if_neg hshape]
  simp only [hinner, unescapeLoop_eq, quoting.unescape_escape]
  split
  · rfl
  next hplain =>
    have hmem : quoting.esc ∉ quoting.escape v := fun h => hplain (List.elem_eq_true_of_mem h)
    rw [← quoting.unescape_of_not_mem hmem, quoting.unescape_escape]

/-! ## Envoy's encoding of an element -/

def encodePair (p : Bytes × Bytes) : Bytes := p.1 ++ equals :: quoting.quoted p.2

def pairs (e : Element) : List (Bytes × Bytes) :=
  [(ascii "Hash", e.hash), (ascii "Subject", e.subject)] ++
    e.uris.map (fun u => (ascii "URI", u)) ++ e.dnss.map (fun d => (ascii "DNS", d))

/-- Every value double-quoted, with backslashes and double quotes backslash-escaped. -/
def encode (e : Element) : Bytes := join [semicolon] ((pairs e).map encodePair)

/-- The keys `encode` writes: plain words. -/
def keys : List Bytes := [ascii "Hash", ascii "Subject", ascii "URI", ascii "DNS"]

theorem pairs_key {e : Element} {p : Bytes × Bytes} (h : p ∈ pairs e) : p.1 ∈ keys := by
  simp only [pairs, List.mem_append, List.mem_cons, List.not_mem_nil, or_false, List.mem_map] at h
  rcases h with ((rfl | rfl) | ⟨u, -, rfl⟩) | ⟨d, -, rfl⟩ <;> simp [keys]

theorem key_plain {k : Bytes} (h : k ∈ keys) {sep : UInt8} (hsep : sep = comma ∨ sep = semicolon) :
    quoting.free sep .outside (k ++ [equals]) = true ∧
      quoting.scan .outside (k ++ [equals]) = .outside := by
  have hall : ∀ s ∈ [comma, semicolon], ∀ k ∈ keys,
      quoting.free s .outside (k ++ [equals]) = true ∧
        quoting.scan .outside (k ++ [equals]) = .outside := by decide +kernel
  exact hall sep (by simpa using hsep) k h

theorem encodePair_plain {e : Element} {p : Bytes × Bytes} (h : p ∈ pairs e) {sep : UInt8}
    (hsep : sep = comma ∨ sep = semicolon) :
    quoting.free sep .outside (encodePair p) = true ∧
      quoting.scan .outside (encodePair p) = .outside := by
  have hq : sep ≠ dquote := by rcases hsep with rfl | rfl <;> decide
  obtain ⟨hfree, hscan⟩ := key_plain (pairs_key h) hsep
  have hp : encodePair p = (p.1 ++ [equals]) ++ quoting.quoted p.2 := by simp [encodePair]
  rw [hp, Quoting.free_append, quoting.scan_append _ (p.1 ++ [equals]), hfree, hscan]
  exact ⟨quoting.free_quoted sep hq p.2, quoting.scan_quoted p.2⟩

theorem encodePairs_plain (e : Element) {sep : UInt8} (hsep : sep = comma ∨ sep = semicolon) :
    ∀ p ∈ (pairs e).map encodePair,
      quoting.free sep .outside p = true ∧ quoting.scan .outside p = .outside := by
  intro p hp
  obtain ⟨kv, hkv, rfl⟩ := List.mem_map.mp hp
  exact encodePair_plain hkv hsep

theorem splitTop_encode (e : Element) : splitTop (encode e) semicolon = (pairs e).map encodePair := by
  rw [splitTop_eq (by decide)]
  exact quoting.split_intercalate semicolon (by decide) (by simp [pairs])
    (encodePairs_plain e (.inr rfl))

theorem encode_free (e : Element) : quoting.free comma .outside (encode e) = true :=
  quoting.free_intercalate comma (by decide) (by decide) (encodePairs_plain e (.inl rfl))

theorem encode_closed (e : Element) : quoting.scan .outside (encode e) = .outside :=
  quoting.scan_intercalate (by decide) fun p hp => (encodePairs_plain e (.inl rfl) p hp).2

theorem equals_mem_encode (e : Element) : equals ∈ encode e := by
  cases e
  simp [encode, join, pairs, encodePair, List.intercalate_cons_cons]

theorem encode_not_blank (e : Element) : trimSpace (encode e) ≠ [] :=
  List.ne_nil_of_mem (mem_trimSpace (b := equals) (by decide) (equals_mem_encode e))

theorem appended_not_blank (xs ys : Bytes) : trimSpace (xs ++ comma :: ys) ≠ [] :=
  List.ne_nil_of_mem (mem_trimSpace (b := comma) (by decide) (by simp))

/-! ## Reading an encoded element back -/

theorem trimSpace_quoted (v : Bytes) : trimSpace (quoting.quoted v) = quoting.quoted v :=
  trimSpace_eq_self (b := dquote) (c := dquote) (by decide) (by decide)
    (t := quoting.escape v ++ [dquote]) (u := dquote :: quoting.escape v) rfl rfl

/-- A header with one element for each certificate. -/
def encodeAll (es : List Element) : Bytes := join [comma] (es.map encode)

theorem splitTop_encodeAll {es : List Element} (hne : es ≠ []) :
    splitTop (encodeAll es) comma = es.map encode := by
  rw [splitTop_eq (by decide)]
  refine quoting.split_intercalate comma (by decide) (by simpa using hne) ?_
  intro p hp
  obtain ⟨e, -, rfl⟩ := List.mem_map.mp hp
  exact ⟨encode_free e, encode_closed e⟩

theorem encodeAll_not_blank {es : List Element} (hne : es ≠ []) : trimSpace (encodeAll es) ≠ [] := by
  obtain ⟨e, es, rfl⟩ := List.exists_cons_of_ne_nil hne
  have hmem : equals ∈ encodeAll (e :: es) := by
    rw [encodeAll, join, List.map_cons]
    cases es with
    | nil => simpa using equals_mem_encode e
    | cons e' es => simp [List.intercalate_cons_cons, equals_mem_encode e]
  exact List.ne_nil_of_mem (mem_trimSpace (b := equals) (by decide) hmem)

/-- What a key of the encoding does to the element being read. -/
def assign (cur : Element) (p : Bytes × Bytes) : Element :=
  if p.1 = ascii "Hash" then { cur with hash := p.2 }
  else if p.1 = ascii "Subject" then { cur with subject := p.2 }
  else if p.1 = ascii "URI" then { cur with uris := cur.uris ++ [p.2] }
  else { cur with dnss := cur.dnss ++ [p.2] }

theorem foldl_assign_uris (us : List Bytes) (cur : Element) :
    (us.map fun u => (ascii "URI", u)).foldl assign cur = { cur with uris := cur.uris ++ us } := by
  induction us generalizing cur with
  | nil => simp
  | cons u us ih =>
    have hu : assign cur (ascii "URI", u) = { cur with uris := cur.uris ++ [u] } := rfl
    rw [List.map_cons, List.foldl_cons, hu, ih]
    simp

theorem foldl_assign_dnss (ds : List Bytes) (cur : Element) :
    (ds.map fun d => (ascii "DNS", d)).foldl assign cur = { cur with dnss := cur.dnss ++ ds } := by
  induction ds generalizing cur with
  | nil => simp
  | cons d ds ih =>
    have hd : assign cur (ascii "DNS", d) = { cur with dnss := cur.dnss ++ [d] } := rfl
    rw [List.map_cons, List.foldl_cons, hd, ih]
    simp

theorem foldl_assign_pairs (e : Element) : (pairs e).foldl assign {} = e := by
  have hhead : [(ascii "Hash", e.hash), (ascii "Subject", e.subject)].foldl assign {} =
      { hash := e.hash, subject := e.subject } := rfl
  rw [pairs, List.foldl_append, List.foldl_append, hhead, foldl_assign_uris, foldl_assign_dnss]
  rfl

/-! ## An open quote in front of Envoy's comma -/

/-- The text leaves no double quote open. -/
def closed (a : Bytes) : Prop := quoting.scan .outside a = .outside

instance (a : Bytes) : Decidable (closed a) := inferInstanceAs (Decidable (_ = _))

/-- With a quote open, Envoy's own quote closes it and the comma of this value splits. -/
def commaHash : Element := { hash := [comma] }

def commaHashRest : Bytes := ascii "\";Subject=\"\""

theorem encode_commaHash : encode commaHash = ascii "Hash=\"" ++ comma :: commaHashRest := by
  decide

theorem scan_open {a : Bytes} (h : ¬ closed a) :
    quoting.scan .outside (a ++ comma :: ascii "Hash=\"") = .outside := by
  rw [quoting.scan_append]
  unfold closed at h
  cases hm : quoting.scan .outside a with
  | outside => exact absurd hm h
  | inside => decide
  | escaped => decide

section
variable [Unicode]

theorem parsePair_encodePair {p : Bytes × Bytes} (hk : p.1 ∈ keys) (cur : Element) :
    parsePair cur (encodePair p) = assign cur p := by
  obtain ⟨k, v⟩ := p
  have hcut : cut equals (encodePair (k, v)) = some (k, quoting.quoted v) :=
    cut_append ((by decide : ∀ k ∈ keys, equals ∉ k) k hk) _
  simp only [parsePair, hcut, trimSpace_quoted, unquote_quoted]
  simp only [keys, List.mem_cons, List.not_mem_nil, or_false] at hk
  rcases hk with rfl | rfl | rfl | rfl <;> rfl

theorem foldl_parsePair {ps : List (Bytes × Bytes)} (h : ∀ p ∈ ps, p.1 ∈ keys) (cur : Element) :
    (ps.map encodePair).foldl parsePair cur = ps.foldl assign cur := by
  induction ps generalizing cur with
  | nil => rfl
  | cons p ps ih =>
    rw [List.map_cons, List.foldl_cons, parsePair_encodePair (h p List.mem_cons_self),
      ih fun p hp => h p (List.mem_cons_of_mem _ hp), List.foldl_cons]

theorem parseElement_encode (e : Element) : parseElement (encode e) = e := by
  rw [parseElement, splitTop_encode, foldl_parsePair fun p => pairs_key, foldl_assign_pairs]

/-- **A header reads back as the certificates it was made from**, whatever bytes their values
hold. -/
theorem parse_encodeAll {es : List Element} (hne : es ≠ []) : parse (encodeAll es) = es := by
  rw [parse, if_neg (encodeAll_not_blank hne), splitTop_encodeAll hne, List.map_map]
  exact (List.map_congr_left fun e _ => parseElement_encode e).trans (List.map_id es)

/-! ## The last element -/

theorem parse_encode (e : Element) : parse (encode e) = [e] := by
  rw [parse, if_neg (encode_not_blank e), splitTop_eq (by decide),
    quoting.split_of_free comma _ _ (encode_free e)]
  simp [parseElement_encode]

/-- What follows a comma the split sees is the last element. -/
theorem parse_last {xs ys : Bytes} (hxs : quoting.scan .outside xs = .outside)
    (hys : quoting.free comma .outside ys = true) :
    (parse (xs ++ comma :: ys)).getLast? = some (parseElement ys) := by
  rw [parse, if_neg (appended_not_blank xs ys), splitTop_eq (by decide),
    quoting.split_append_sep comma (by decide) xs ys .outside hxs,
    quoting.split_of_free comma ys _ hys]
  simp

theorem inspect_of_last {cfg : Config} {req : Request} {hs hs' : List Header} {v v' : Bytes}
    (hv : header hs cfg.header = some v) (hv' : header hs' cfg.header = some v')
    (hb : trimSpace v ≠ []) (hb' : trimSpace v' ≠ [])
    (hlast : (parse v).getLast? = (parse v').getLast?) :
    inspect cfg { req with headers := hs } = inspect cfg { req with headers := hs' } := by
  simp only [inspect, hv, hv', Option.getD_some, if_neg hb, if_neg hb', hlast]

theorem parse_open {a : Bytes} (h : ¬ closed a) :
    (parse (a ++ comma :: encode commaHash)).getLast? = some {} := by
  have hsplit : a ++ comma :: encode commaHash =
      (a ++ comma :: ascii "Hash=\"") ++ comma :: commaHashRest := by
    simp [encode_commaHash]
  have hrest : parseElement commaHashRest = {} := rfl
  rw [hsplit, parse_last (scan_open h) (by decide), hrest]

theorem parse_closed {a : Bytes} (h : closed a) (e : Element) :
    (parse (a ++ comma :: encode e)).getLast? = some e := by
  rw [parse_last h (encode_free e), parseElement_encode]

/-- An allow-list that names the fingerprint of `commaHash` only. -/
def allowComma : Config := { hashes := [[comma]] }

theorem header_single (name v : Bytes) : header [⟨name, v⟩] name = some v := by
  simp [header, equalFold]

theorem inspect_open {a : Bytes} (h : ¬ closed a) {req : Request} (hreq : req.direction = .request)
    {hs : List Header} (hv : header hs allowComma.header = some (a ++ comma :: encode commaHash)) :
    (inspect allowComma { req with headers := hs }).action = .block := by
  have hallow : allowComma.hasAllow = true := by decide
  have hno : allowComma.matches {} = false := rfl
  simp [inspect, hreq, hv, appended_not_blank, parse_open h, hallow, hno, block]

theorem inspect_alone {req : Request} (hreq : req.direction = .request) {hs : List Header}
    (hv : header hs allowComma.header = some (encode commaHash)) :
    inspect allowComma { req with headers := hs } = {} := by
  have hyes : allowComma.matches commaHash = true := rfl
  simp [inspect, hreq, hv, encode_not_blank, parse_encode, hyes]

/-- The last element is Envoy's, and the verdict is the one on Envoy's element alone, exactly
when what stands in front of Envoy's comma leaves no quote open. -/
theorem prepended_iff_closed (a : Bytes) :
    ((∀ e, (parse (a ++ comma :: encode e)).getLast? = some e) ↔ closed a) ∧
    ((∀ (cfg : Config) (e : Element) (req : Request) (hs hs' : List Header),
        header hs cfg.header = some (a ++ comma :: encode e) →
        header hs' cfg.header = some (encode e) →
        inspect cfg { req with headers := hs } = inspect cfg { req with headers := hs' }) ↔
      closed a) := by
  refine ⟨⟨fun h => ?_, parse_closed⟩, ⟨fun h => ?_, fun h => ?_⟩⟩
  · by_contra hopen
    have hlast := (parse_open hopen).symm.trans (h commaHash)
    exact absurd hlast (by decide)
  · by_contra hopen
    let req : Request := ⟨.request, [], [], [], [], [], [], []⟩
    let name := allowComma.header
    have hsame := h allowComma commaHash req [⟨name, a ++ comma :: encode commaHash⟩]
      [⟨name, encode commaHash⟩] (header_single _ _) (header_single _ _)
    have hblock := inspect_open hopen (show req.direction = .request from rfl) (header_single _ _)
    rw [hsame, inspect_alone rfl (header_single _ _)] at hblock
    exact absurd hblock (by decide)
  · intro cfg e req hs hs' hv hv'
    refine inspect_of_last hv hv' (appended_not_blank a _) (encode_not_blank e) ?_
    rw [parse_closed h, parse_encode]
    rfl

end

/-- Separators, quotes and backslashes in the values. -/
def delimiters : Element where
  hash := ascii ",;=\"\\"
  subject := ascii "CN=a\",O=b\\"
  uris := [ascii "\\\"", []]
  dnss := [ascii ",Hash=x"]

theorem delimiters_read_back :
    @parse Unicode.asciiOnly (encodeAll [delimiters, {}, delimiters]) = [delimiters, {}, delimiters] :=
  @parse_encodeAll Unicode.asciiOnly _ (by simp)

/-- A client certificate whose subject holds what the split takes for a last element. -/
def spoofing : Element := { hash := ascii "aa", subject := ascii ",URI=spiffe://admin;" }

def spoofed (value : Bytes) : Request where
  direction := .request
  host := []
  path := []
  method := []
  contentType := []
  sourceIP := []
  body := []
  headers := [⟨ascii "x-forwarded-client-cert", value⟩]

/-- One double quote in front of Envoy's element lets its certificate pass for another one. -/
theorem open_quote_spoofs :
    let cfg : Config := { uris := [ascii "spiffe://admin"] }
    let header := ascii "\"" ++ comma :: encode spoofing
    (@parse Unicode.asciiOnly header).getLast? ≠ some spoofing ∧
      (@inspect Unicode.asciiOnly cfg (spoofed header)).action = .continue_ ∧
      (@inspect Unicode.asciiOnly cfg (spoofed (encode spoofing))).action = .block := by
  decide +kernel

end ElchiShield.Xfcc
