import ElchiShield.Go.Ascii
import ElchiShield.Go.Netip

/-! # Feed files

Package `feed`: threat feeds on disk as lists of prefixes. A mapped IPv4 prefix is stored in its
native form, since the addresses looked up later are unmapped. -/
namespace ElchiShield.Feed
open ElchiShield.Go ElchiShield.Go.Netip

def formatCIDRLines : Bytes := ascii "cidr_lines"
def formatFireholNetset : Bytes := ascii "firehol_netset"
def formatSpamhausJSON : Bytes := ascii "spamhaus_json"

def maxFeedEntries : Nat := 5000000

/-- The second argument of `Scanner.Buffer`. -/
def maxLine : Nat := 2 ^ 20

def knownFormat (format : Bytes) : Bool :=
  [formatCIDRLines, formatFireholNetset, formatSpamhausJSON].contains format

class Records where
  /-- `json.Unmarshal` of a record, as its `cidr`; empty when there is none. -/
  cidr : Bytes → Option Bytes

def unmapPrefix (p : Prefix) : Prefix :=
  if p.addr.is4In6 = true ∧ 96 ≤ p.bits then (p.addr.unmap.toPrefix (p.bits - 96)).getD p else p

/-- A CIDR, or a bare address as the prefix of one host. -/
def parsePrefix (token : Bytes) : Except Err Prefix :=
  if token.contains slash then
    match Netip.parsePrefix token with
    | some p => .ok (unmapPrefix p).masked
    | none => .error ⟨"invalid CIDR %q: %w", [.str token]⟩
  else match parseAddr token with
    | some addr => .ok addr.unmap.hostPrefix
    | none => .error ⟨"invalid IP %q: %w", [.str token]⟩

/-! ## Lines -/

/-- What `bufio.ScanLines` cuts a file into; nothing behind the last newline is no line. -/
def rawLines (data : Bytes) : List Bytes :=
  let parts := data.splitOn 10
  if parts.getLast? = some [] then parts.dropLast else parts

def dropCR (line : Bytes) : Bytes := if line.getLast? = some 13 then line.dropLast else line

/-- A blank line or a comment. -/
def skipped (text : Bytes) : Bool :=
  let raw := trimSpace text
  raw == [] || raw.head? == some (ch '#') || raw.head? == some (ch ';')

/-- The bytes an inline comment may start with. -/
def endsToken (b : UInt8) : Bool := (ascii " \t#;").contains b

section
variable [Records]

/-- The round of the loop of `Load` for one line; `none` when it holds no entry. -/
def parseLine (path format : Bytes) (line : Nat) (text : Bytes) : Except Err (Option Prefix) :=
  if skipped text then .ok none
  else
    let raw := trimSpace text
    let parsed (token : Bytes) : Except Err (Option Prefix) :=
      match parsePrefix token with
      | .ok p => .ok (some p)
      | .error err => .error ⟨"%s:%d: " ++ err.format, .str path :: .int line :: err.args⟩
    if format = formatSpamhausJSON then
      if raw.head? ≠ some (ch '\x7b') then .ok none
      else match Records.cidr raw with
        | some (b :: cidr) => parsed (b :: cidr)
        | _ => .error ⟨"%s:%d: malformed spamhaus record", [.str path, .int line]⟩
    else parsed (raw.takeWhile fun b => !endsToken b)

def loadLines (path format : Bytes) : Nat → List Prefix → List Bytes → Except Err (List Prefix)
  | _, out, [] => .ok out
  | line, out, raw :: rest =>
    if maxLine ≤ raw.length then .error ⟨"bufio.Scanner: token too long", []⟩
    else match parseLine path format line (dropCR raw) with
      | .error err => .error err
      | .ok none => loadLines path format (line + 1) out rest
      | .ok (some p) =>
        if maxFeedEntries < out.length + 1 then
          .error ⟨"%s: feed exceeds the %d-entry limit", [.str path, .int maxFeedEntries]⟩
        else loadLines path format (line + 1) (out ++ [p]) rest

def load (fs : Bytes → Option Bytes) (path format : Bytes) : Except Err (List Prefix) :=
  if !knownFormat format then .error ⟨"unknown feed format %q", [.str format]⟩
  else match fs path with
    | none => .error ⟨"%w", []⟩
    | some data => loadLines path format 1 [] (rawLines data)

end

/-! ## Unmapped prefixes -/

theorem unmapPrefix_eq_self {p : Prefix} (h : ¬ (p.addr.is4In6 = true ∧ 96 ≤ p.bits)) :
    unmapPrefix p = p := if_neg h

/-- The unmapped prefix contains an address that is not mapped if the prefix itself does, or if
it is an IPv4 address whose mapped form the prefix contains. -/
theorem contains_unmapPrefix (p : Prefix) {ip : Addr} (hip : ip.is4In6 = false) :
    (unmapPrefix p).contains ip = true ↔
      p.contains ip = true ∨
        96 ≤ p.bits ∧ ∃ a, ip = .v4 a ∧ p.contains (Addr.mapped a) = true := by
  by_cases hmapped : p.addr.is4In6 = true ∧ 96 ≤ p.bits
  · obtain ⟨h4, hbits⟩ := hmapped
    obtain ⟨np, hnp, hv4, hv6⟩ := Prefix.exists_unmapped h4 hbits
    have hout : p.contains ip = true → False := by
      intro h
      have hsame := Prefix.is4In6_of_contains hbits h
      rw [hip, h4] at hsame
      cases hsame
    have hunmap : unmapPrefix p = np := by rw [unmapPrefix, if_pos ⟨h4, hbits⟩, hnp, Option.getD_some]
    rw [hunmap, iff_true_intro hbits, true_and, or_iff_right hout]
    cases ip with
    | v4 a => simp [hv4]
    | v6 a zone => simp [hv6]
  · rw [unmapPrefix_eq_self hmapped]
    refine ⟨Or.inl, ?_⟩
    rintro (h | ⟨hbits, a, rfl, h⟩)
    · exact h
    · have hsame := Prefix.is4In6_of_contains hbits h
      exact absurd ⟨hsame ▸ Addr.is4In6_mapped a, hbits⟩ hmapped

/-! ## A file with one entry -/

/-- One line of the file is `c`, and the others hold nothing. -/
def OnlyLine (c data : Bytes) : Prop :=
  ∃ before after, (rawLines data).map dropCR = before ++ c :: after ∧
    ∀ text ∈ before ++ after, skipped text = true

theorem inPrefix_solid : ∀ b : UInt8, inPrefix b = true → solid b = true ∧ endsToken b = false :=
  forall_byte (by decide +kernel)

/-- The text of a prefix is its own token, with nothing to trim or to cut off. -/
theorem token_of_parsePrefix {c : Bytes} {p : Prefix} (h : Netip.parsePrefix c = some p) :
    trimSpace c = c ∧ c.takeWhile (fun b => !endsToken b) = c ∧ skipped c = false := by
  obtain ⟨hslash, htext⟩ := parsePrefix_text h
  have hsolid : ∀ b ∈ c, solid b = true := fun b hb => (inPrefix_solid b (htext b hb)).1
  have hcut : ∀ b ∈ c, endsToken b = false := fun b hb => (inPrefix_solid b (htext b hb)).2
  have hne : c ≠ [] := List.ne_nil_of_mem hslash
  obtain ⟨b, t, hb⟩ := List.exists_cons_of_ne_nil hne
  have htrim : trimSpace c = c :=
    trimSpace_eq_self (hsolid b (hb ▸ List.mem_cons_self)) (hsolid _ (List.getLast_mem hne)) hb
      (List.dropLast_append_getLast hne).symm
  refine ⟨htrim, List.takeWhile_eq_self_iff.mpr fun b hb => by simp [hcut b hb], ?_⟩
  have hfirst : b ≠ ch '#' ∧ b ≠ ch ';' := by
    have hb := hcut b (hb ▸ List.mem_cons_self)
    constructor <;> (rintro rfl; exact absurd hb (by decide))
  rw [skipped, htrim, hb]
  simp [hfirst]

section
variable [Records] {path format : Bytes}

theorem parseLine_skipped {text : Bytes} (h : skipped text = true) (line : Nat) :
    parseLine path format line text = .ok none := if_pos h

theorem parseLine_cidr {c : Bytes} {p : Prefix} (h : Netip.parsePrefix c = some p) (line : Nat) :
    parseLine path formatCIDRLines line c = .ok (some (unmapPrefix p).masked) := by
  obtain ⟨htrim, htoken, hskip⟩ := token_of_parsePrefix h
  have hslash : c.contains slash = true := List.contains_iff_mem.mpr (parsePrefix_text h).1
  have hparse : parsePrefix c = .ok (unmapPrefix p).masked := by
    rw [parsePrefix, if_pos hslash, h]
  have hformat : formatCIDRLines ≠ formatSpamhausJSON := by decide
  unfold parseLine
  simp only [hskip, Bool.false_eq_true, if_false, if_neg hformat, htrim, htoken, hparse]

/-- Lines that hold nothing are read over. -/
theorem loadLines_skipped {before : List Bytes} (h : ∀ raw ∈ before, skipped (dropCR raw) = true)
    {line : Nat} {out ps : List Prefix} {rest : List Bytes}
    (hload : loadLines path format line out (before ++ rest) = .ok ps) :
    loadLines path format (line + before.length) out rest = .ok ps := by
  induction before generalizing line with
  | nil => exact hload
  | cons raw before ih =>
    obtain ⟨hraw, hbefore⟩ := List.forall_mem_cons.mp h
    rw [List.cons_append, loadLines, parseLine_skipped hraw] at hload
    split at hload
    next => cases hload
    next =>
      have hrest := ih hbefore hload
      rwa [List.length_cons, Nat.add_comm before.length, ← Nat.add_assoc]

/-- A loaded file whose only line is a CIDR gives its unmapped prefix. -/
theorem load_onlyLine {fs : Bytes → Option Bytes} {c data : Bytes} {p : Prefix} {ps : List Prefix}
    (hp : Netip.parsePrefix c = some p) (hfile : fs path = some data) (honly : OnlyLine c data)
    (hload : load fs path formatCIDRLines = .ok ps) : ps = [(unmapPrefix p).masked] := by
  have hknown : knownFormat formatCIDRLines = true := by decide
  simp only [load, hknown, Bool.not_true, Bool.false_eq_true, if_false, hfile] at hload
  obtain ⟨before, after, hlines, hskip⟩ := honly
  obtain ⟨pre, tail, hraw, rfl, htail⟩ := List.map_eq_append_iff.mp hlines
  obtain ⟨raw, post, rfl, hc, rfl⟩ := List.map_eq_cons_iff.mp htail
  rw [List.forall_mem_append, List.forall_mem_map, List.forall_mem_map] at hskip
  rw [hraw] at hload
  have hentry := loadLines_skipped hskip.1 hload
  rw [loadLines, hc, parseLine_cidr hp] at hentry
  split at hentry
  next => cases hentry
  next =>
    -- one entry is far below the limit, so its test computes to false
    dsimp only at hentry
    have hend := loadLines_skipped hskip.2 (List.append_nil post ▸ hentry)
    exact (Except.ok.inj hend).symm

end

end ElchiShield.Feed
