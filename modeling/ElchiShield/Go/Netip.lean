import ElchiShield.Go.Encoding
import ElchiShield.Go.Path
import ElchiShield.Lib.LeadingBits
import ElchiShield.Lib.Segments
import Mathlib.Data.List.TakeWhile

/-! # Addresses and prefixes

What the shield uses of the package `net/netip`: the texts `ParseAddr`, `ParseAddrPort` and
`ParsePrefix` accept, the text of an address, and what a prefix contains. Errors are `none`,
without the reason the package gives. -/
namespace ElchiShield.Go.Netip
open ElchiShield.Lib

/-- A valid `netip.Addr`; the zone is empty when there is none. -/
inductive Addr where
  | v4 (ip : BitVec 32)
  | v6 (ip : BitVec 128) (zone : Bytes)
  deriving DecidableEq

namespace Addr

def bitLen : Addr → Nat
  | v4 _ => 32
  | v6 _ _ => 128

def zone : Addr → Bytes
  | v4 _ => []
  | v6 _ zone => zone

def withoutZone : Addr → Addr
  | v4 ip => v4 ip
  | v6 ip _ => v6 ip []

/-- The address is one of ::ffff:0:0/96. -/
def is4In6 : Addr → Bool
  | v4 _ => false
  | v6 ip _ => ip >>> 32 == 0xffff#128

def unmap : Addr → Addr
  | v4 ip => v4 ip
  | v6 ip zone => if (v6 ip zone).is4In6 then v4 (ip.setWidth 32) else v6 ip zone

/-- The address of ::ffff:0:0/96 that `unmap` turns into `ip`. -/
def mapped (ip : BitVec 32) : Addr := v6 (0xffff#96 ++ ip) []

def isLoopback (a : Addr) : Bool :=
  match a.unmap with
  | v4 ip => ip >>> 24 == 127#32
  | v6 ip _ => ip == 1#128

/-- The address of `Prefix(bits)`: its host bits and its zone are gone. -/
def network (bits : Nat) : Addr → Addr
  | v4 ip => v4 (clearAfter bits ip)
  | v6 ip _ => v6 (clearAfter bits ip) []

end Addr

/-- A valid `netip.Prefix`; its host bits need not be zero. -/
structure Prefix where
  addr : Addr
  bits : Nat
  bits_le : bits ≤ addr.bitLen
  zone_eq : addr.zone = []
  deriving DecidableEq

namespace Addr

@[simp] theorem bitLen_withoutZone (a : Addr) : a.withoutZone.bitLen = a.bitLen := by
  cases a <;> rfl

@[simp] theorem zone_withoutZone (a : Addr) : a.withoutZone.zone = [] := by cases a <;> rfl

@[simp] theorem bitLen_network (bits : Nat) (a : Addr) : (a.network bits).bitLen = a.bitLen := by
  cases a <;> rfl

@[simp] theorem zone_network (bits : Nat) (a : Addr) : (a.network bits).zone = [] := by
  cases a <;> rfl

/-- `Addr.Prefix`. -/
def toPrefix (a : Addr) (bits : Nat) : Option Prefix :=
  if h : bits ≤ a.bitLen then some ⟨a.network bits, bits, by simpa using h, by simp⟩ else none

/-- `PrefixFrom` with the whole length of the address. -/
def hostPrefix (a : Addr) : Prefix := ⟨a.withoutZone, a.bitLen, by simp, by simp⟩

end Addr

namespace Prefix

def masked (p : Prefix) : Prefix :=
  ⟨p.addr.network p.bits, p.bits, by simpa using p.bits_le, by simp⟩

/-- The prefix and the address are of one family and agree on the bits of the prefix. -/
def contains (p : Prefix) (ip : Addr) : Bool :=
  match p.addr, ip with
  | .v4 net, .v4 a => leading p.bits net == leading p.bits a
  | .v6 net _, .v6 a _ => leading p.bits net == leading p.bits a
  | _, _ => false

@[simp] theorem contains_masked (p : Prefix) (ip : Addr) : p.masked.contains ip = p.contains ip := by
  obtain ⟨addr, bits, _, _⟩ := p
  cases addr <;> cases ip <;> simp [contains, masked, Addr.network]

end Prefix

/-! ## Mapped addresses -/

theorem Addr.is4In6_unmap (a : Addr) : a.unmap.is4In6 = false := by
  cases a with
  | v4 ip => rfl
  | v6 ip zone =>
    cases h : (Addr.v6 ip zone).is4In6 with
    | true => rw [show (Addr.v6 ip zone).unmap = .v4 (ip.setWidth 32) from if_pos h]; rfl
    | false => rw [show (Addr.v6 ip zone).unmap = .v6 ip zone from if_neg (by simp [h]), h]

theorem Addr.is4In6_eq (ip : BitVec 128) (zone : Bytes) :
    (Addr.v6 ip zone).is4In6 = (leading 96 ip == 0xffff#128) := rfl

/-- A mapped address is the fixed 96 bits in front of the IPv4 address it unmaps to. -/
theorem Addr.is4In6_iff {ip : BitVec 128} {zone : Bytes} :
    (Addr.v6 ip zone).is4In6 = true ↔ ip = 0xffff#96 ++ ip.setWidth 32 := by
  rw [Addr.is4In6, beq_iff_eq, ← BitVec.toNat_inj, ← BitVec.toNat_inj, BitVec.toNat_append,
    ← Nat.shiftLeft_add_eq_or_of_lt (BitVec.isLt _)]
  simp only [BitVec.toNat_ushiftRight, BitVec.toNat_ofNat, BitVec.toNat_setWidth,
    Nat.shiftLeft_eq, Nat.shiftRight_eq_div_pow]
  omega

theorem Addr.is4In6_mapped (ip : BitVec 32) : (Addr.mapped ip).is4In6 = true := by
  have hlow : (0xffff#96 ++ ip).setWidth 32 = ip := by
    refine BitVec.eq_of_getLsbD_eq fun i hi => ?_
    rw [BitVec.getLsbD_setWidth, BitVec.getLsbD_append]
    simp [hi]
  rw [Addr.mapped, Addr.is4In6_iff, hlow]

namespace Prefix

/-- A prefix of at least 96 bits holds mapped addresses only, or none of them. -/
theorem is4In6_of_contains {p : Prefix} (hbits : 96 ≤ p.bits) {ip : Addr}
    (h : p.contains ip = true) : ip.is4In6 = p.addr.is4In6 := by
  obtain ⟨addr, bits, _, _⟩ := p
  cases addr <;> cases ip <;> simp only [contains, Bool.false_eq_true, beq_iff_eq] at h
  next => rfl
  next => rw [Addr.is4In6_eq, Addr.is4In6_eq, leading_mono hbits h]

/-- The unmapped form of a mapped prefix contains what unmaps from the prefix. -/
theorem exists_unmapped {p : Prefix} (h4 : p.addr.is4In6 = true) (hbits : 96 ≤ p.bits) :
    ∃ np, p.addr.unmap.toPrefix (p.bits - 96) = some np ∧
      (∀ ip, np.contains (.v4 ip) = p.contains (Addr.mapped ip)) ∧
      ∀ ip zone, np.contains (.v6 ip zone) = false := by
  obtain ⟨addr, bits, hle, hzone⟩ := p
  cases addr with
  | v4 net => cases h4
  | v6 net zone =>
    have hunmap : (Addr.v6 net zone).unmap = .v4 (net.setWidth 32) := if_pos h4
    have hlen : bits - 96 ≤ (Addr.v4 (net.setWidth 32)).bitLen := Nat.sub_le_sub_right hle 96
    refine ⟨_, by rw [hunmap, Addr.toPrefix, dif_pos hlen], fun ip => ?_, fun _ _ => rfl⟩
    have hsame : leading bits net = leading bits (0xffff#96 ++ ip) ↔
        leading (bits - 96) (net.setWidth 32) = leading (bits - 96) ip := by
      have hlead := leading_append_iff (a := 0xffff#96) (b := 0xffff#96) (n := bits - 96)
        (x := net.setWidth 32) (y := ip)
      rw [← Addr.is4In6_iff.mp h4, Nat.add_sub_cancel' hbits] at hlead
      simpa using hlead
    rw [Bool.eq_iff_iff]
    simpa [contains, Addr.mapped, Addr.network] using hsame.symm

end Prefix

/-! ## Parsing -/

def colon : UInt8 := ch ':'
def percent : UInt8 := ch '%'

/-- A field of an IPv4 address: up to 255, without leading zeros. -/
def parseOctet (s : Bytes) : Option Nat :=
  if 1 < s.length ∧ s.head? = some (ch '0') then none
  else (parseDigits s).filter (· ≤ 255)

def parseIPv4Fields (s : Bytes) : Option (BitVec 32) :=
  match (s.splitOn dot).map parseOctet with
  | [some a, some b, some c, some d] => some (BitVec.ofNat 32 (((a * 256 + b) * 256 + c) * 256 + d))
  | _ => none

def isHexDigit (b : UInt8) : Bool := (fromHexChar b).isSome

/-- A group of up to four hex digits, and the text behind it. -/
def parseGroup (s : Bytes) : Option (Nat × Bytes) :=
  let digits := s.takeWhile isHexDigit
  if digits = [] ∨ 4 < digits.length then none
  else some (digits.foldl (fun n d => n * 16 + (fromHexChar d).getD 0) 0, s.dropWhile isHexDigit)

/-- The loop of `parseIPv6`, of eight rounds. `ellipsis` is the number of groups in front of
the "::", once there was one. An IPv4 address at the end stands for two groups. -/
def parseGroups : Nat → List Nat → Option Nat → Bytes → Option (List Nat × Option Nat)
  | 0, groups, ellipsis, s => if s = [] then some (groups, ellipsis) else none
  | n + 1, groups, ellipsis, s =>
    match parseGroup s with
    | none => none
    | some (group, rest) =>
      if rest.head? = some dot then
        if ellipsis = none ∧ groups.length ≠ 6 ∨ 6 < groups.length then none
        else (parseIPv4Fields s).map fun ip =>
          (groups ++ [ip.toNat / 2 ^ 16, ip.toNat % 2 ^ 16], ellipsis)
      else match rest with
        | [] => some (groups ++ [group], ellipsis)
        | c :: more =>
          if c ≠ colon ∨ more = [] then none
          else if more.head? ≠ some colon then parseGroups n (groups ++ [group]) ellipsis more
          else if ellipsis.isSome then none
          else if more.tail = [] then some (groups ++ [group], some (groups.length + 1))
          else parseGroups n (groups ++ [group]) (some (groups.length + 1)) more.tail

/-- The eight groups of an address; a "::" stands for at least one of them. -/
def expand (groups : List Nat) (ellipsis : Option Nat) : Option (List Nat) :=
  if groups.length < 8 then
    ellipsis.map fun e =>
      groups.take e ++ List.replicate (8 - groups.length) 0 ++ groups.drop e
  else if ellipsis.isSome then none
  else some groups

/-- `parseIPv6` behind the split at the zone. -/
def parseIPv6Text (s : Bytes) : Option (BitVec 128) :=
  if s = [colon, colon] then some 0
  else
    let parsed := match cutPrefix [colon, colon] s with
      | some rest => parseGroups 8 [] (some 0) rest
      | none => parseGroups 8 [] none s
    (parsed.bind fun r => expand r.1 r.2).map fun groups =>
      BitVec.ofNat 128 (groups.foldl (fun n g => n * 2 ^ 16 + g) 0)

def parseIPv6 (s : Bytes) : Option Addr :=
  match cut percent s with
  | none => (parseIPv6Text s).map fun ip => .v6 ip []
  | some (text, zone) =>
    if zone = [] then none else (parseIPv6Text text).map fun ip => .v6 ip zone

/-- `netip.ParseAddr`. -/
def parseAddr (s : Bytes) : Option Addr :=
  match s.find? fun b => b = dot ∨ b = colon ∨ b = percent with
  | none => none
  | some b =>
    if b = dot then (parseIPv4Fields s).map .v4
    else if b = colon then parseIPv6 s
    else none

/-- The length behind the slash of a prefix: no sign, no leading zeros. -/
def parseBits (s : Bytes) : Option Nat :=
  if 1 < s.length ∧ s.head? = some (ch '0') then none else parseDigits s

/-- `netip.ParsePrefix`. -/
def parsePrefix (s : Bytes) : Option Prefix :=
  match cutLast slash s with
  | none => none
  | some (text, length) => do
    let addr ← parseAddr text
    let bits ← parseBits length
    if h : addr.zone = [] ∧ bits ≤ addr.bitLen then some ⟨addr, bits, h.2, h.1⟩ else none

/-- `strconv.ParseUint(s, 10, 16)` succeeds. -/
def isPort (s : Bytes) : Bool := (parseDigits s).any (· < 2 ^ 16)

/-- The address of `netip.ParseAddrPort`. An IPv6 address stands in brackets, and no other does. -/
def parseAddrPort (s : Bytes) : Option Addr :=
  match cutLast colon s with
  | none => none
  | some (ip, port) =>
    if ip = [] ∨ !isPort port then none
    else if ip.head? = some (ch '[') then
      if ip.length < 2 ∨ ip.getLast? ≠ some (ch ']') then none
      else (parseAddr ip.tail.dropLast).filter fun a => a.bitLen = 128
    else (parseAddr ip).filter fun a => a.bitLen = 32

/-! ### The text of an address -/

/-- A number below 2^16 in hex, without leading zeros. -/
def appendHex (n : Nat) : Bytes :=
  (if 0x1000 ≤ n then [hexDigit (n / 0x1000)] else []) ++
  (if 0x100 ≤ n then [hexDigit (n / 0x100 % 16)] else []) ++
  (if 0x10 ≤ n then [hexDigit (n / 0x10 % 16)] else []) ++ [hexDigit (n % 16)]

def groupsOf (ip : BitVec 128) : List Nat :=
  (List.range 8).map fun i => (ip >>> (16 * (7 - i))).toNat % 2 ^ 16

/-- Where the first of the longest runs of two or more zero groups starts, and its length. -/
def longestZeros (groups : List Nat) : Option (Nat × Nat) :=
  (List.range 8).foldl (fun best i =>
    let l := ((groups.drop i).takeWhile (· = 0)).length
    if 2 ≤ l ∧ (best.map Prod.snd).getD 0 < l then some (i, l) else best) none

def text6 (groups : List Nat) : Bytes :=
  match longestZeros groups with
  | none => join [colon] (groups.map appendHex)
  | some (start, l) =>
    join [colon] ((groups.take start).map appendHex) ++ [colon, colon] ++
      join [colon] ((groups.drop (start + l)).map appendHex)

def text4 (ip : BitVec 32) : Bytes :=
  join [dot] ([24, 16, 8, 0].map fun shift => itoa ((ip >>> shift).toNat % 256))

/-- `Addr.String`. -/
def Addr.text (a : Addr) : Bytes :=
  match a with
  | .v4 ip => text4 ip
  | .v6 ip zone =>
    (if a.is4In6 then ascii "::ffff:" ++ text4 (ip.setWidth 32) else text6 (groupsOf ip)) ++
      if zone = [] then [] else percent :: zone

example : (parseAddr (ascii "2001:DB8:0:0:1:0:0:1")).map Addr.text = some (ascii "2001:db8::1:0:0:1") := by
  decide +kernel

/-! ### What an accepted text is made of -/

/-- The bytes a prefix is written with. -/
def inPrefix (b : UInt8) : Bool := isHexDigit b || b == dot || b == colon || b == slash

theorem isHexDigit_of_isDigit {b : UInt8} (h : isDigit b = true) : isHexDigit b = true := by
  have hb : 48 ≤ b ∧ b ≤ 57 := by simpa [isDigit] using h
  simp [isHexDigit, fromHexChar, hb]

theorem inPrefix_of_isHexDigit {b : UInt8} (h : isHexDigit b = true) : inPrefix b = true := by
  simp [inPrefix, h]

theorem parseDigits_text {s : Bytes} {n : Nat} (h : parseDigits s = some n) :
    ∀ b ∈ s, inPrefix b = true := by
  unfold parseDigits at h
  split at h
  next => cases h
  next hs =>
    intro b hb
    have hdigits : s ≠ [] ∧ ∀ b ∈ s, isDigit b = true := by simpa using hs
    exact inPrefix_of_isHexDigit (isHexDigit_of_isDigit (hdigits.2 b hb))

theorem parseOctet_text {s : Bytes} {n : Nat} (h : parseOctet s = some n) :
    ∀ b ∈ s, inPrefix b = true := by
  unfold parseOctet at h
  split at h
  next => cases h
  next => exact parseDigits_text (Option.filter_eq_some_iff.mp h).1

theorem parseBits_text {s : Bytes} {n : Nat} (h : parseBits s = some n) :
    ∀ b ∈ s, inPrefix b = true := by
  unfold parseBits at h
  split at h
  next => cases h
  next => exact parseDigits_text h

theorem parseIPv4Fields_text {s : Bytes} {ip : BitVec 32} (h : parseIPv4Fields s = some ip) :
    ∀ b ∈ s, inPrefix b = true := by
  unfold parseIPv4Fields at h
  split at h
  next heq =>
    intro b hb
    have hsplit : b ∈ rootedText dot (s.splitOn dot) := by
      rw [rootedText_splitOn]
      exact List.mem_cons_of_mem dot hb
    obtain ⟨field, hfield, hbf⟩ := List.mem_flatMap.mp hsplit
    rcases List.mem_cons.mp hbf with rfl | hbf
    · decide
    · have hparsed : ∃ n, parseOctet field = some n := by
        have hmem := heq ▸ List.mem_map_of_mem (f := parseOctet) hfield
        simp only [List.mem_cons, List.not_mem_nil, or_false] at hmem
        rcases hmem with h | h | h | h <;> exact ⟨_, h⟩
      obtain ⟨n, hn⟩ := hparsed
      exact parseOctet_text hn b hbf
  next => cases h

theorem parseGroup_text {s rest : Bytes} {group : Nat} (h : parseGroup s = some (group, rest)) :
    ∃ digits, s = digits ++ rest ∧ ∀ b ∈ digits, inPrefix b = true := by
  unfold parseGroup at h
  dsimp only at h
  split at h
  next => cases h
  next =>
    obtain ⟨-, rfl⟩ := Prod.mk.inj (Option.some.inj h)
    refine ⟨s.takeWhile isHexDigit, (List.takeWhile_append_dropWhile).symm, fun b hb => ?_⟩
    exact inPrefix_of_isHexDigit (List.mem_takeWhile_imp hb)

theorem parseGroups_text {n : Nat} {groups : List Nat} {ellipsis : Option Nat} {s : Bytes}
    {r : List Nat × Option Nat} (h : parseGroups n groups ellipsis s = some r) :
    ∀ b ∈ s, inPrefix b = true := by
  induction n generalizing groups ellipsis s with
  | zero =>
    unfold parseGroups at h
    split at h
    next hs => simp [hs]
    next => cases h
  | succ n ih =>
    unfold parseGroups at h
    split at h
    next => cases h
    next group rest hgroup =>
      split at h
      next =>
        split at h
        next => cases h
        next =>
          obtain ⟨ip, hip, -⟩ := Option.map_eq_some_iff.mp h
          exact parseIPv4Fields_text hip
      next =>
        obtain ⟨digits, rfl, hdigits⟩ := parseGroup_text hgroup
        refine List.forall_mem_append.mpr ⟨hdigits, ?_⟩
        split at h
        next => simp
        next c more _ =>
          split at h
          next => cases h
          next hc =>
            obtain ⟨rfl, -⟩ : c = colon ∧ more ≠ [] := by simpa using hc
            refine List.forall_mem_cons.mpr ⟨by decide, ?_⟩
            split at h
            next => exact ih h
            next hellipsis =>
              obtain ⟨tail, rfl⟩ := List.head?_eq_some_iff.mp (not_not.mp hellipsis)
              refine List.forall_mem_cons.mpr ⟨by decide, ?_⟩
              split at h
              next => cases h
              next =>
                split at h
                next htail => rw [List.tail_cons] at htail; simp [htail]
                next => exact ih h

theorem ellipsis_text : ∀ b ∈ [colon, colon], inPrefix b = true := by
  have hcolon : inPrefix colon = true := by decide
  simp [hcolon]

theorem parseIPv6Text_text {s : Bytes} {ip : BitVec 128} (h : parseIPv6Text s = some ip) :
    ∀ b ∈ s, inPrefix b = true := by
  unfold parseIPv6Text at h
  split at h
  next hs => rw [hs]; exact ellipsis_text
  next =>
    obtain ⟨groups, hgroups, -⟩ := Option.map_eq_some_iff.mp h
    obtain ⟨r, hr, -⟩ := Option.bind_eq_some_iff.mp hgroups
    split at hr
    next rest hrest =>
      obtain ⟨hp, rfl⟩ : [colon, colon] <+: s ∧ s.drop 2 = rest := by
        simpa [cutPrefix] using hrest
      obtain ⟨t, rfl⟩ := hp
      exact List.forall_mem_append.mpr ⟨ellipsis_text, parseGroups_text hr⟩
    next => exact parseGroups_text hr

theorem parseAddr_text {s : Bytes} {addr : Addr} (h : parseAddr s = some addr)
    (hzone : addr.zone = []) : ∀ b ∈ s, inPrefix b = true := by
  unfold parseAddr at h
  split at h
  next => cases h
  next =>
    split at h
    next =>
      obtain ⟨ip, hip, -⟩ := Option.map_eq_some_iff.mp h
      exact parseIPv4Fields_text hip
    next =>
      split at h
      next =>
        unfold parseIPv6 at h
        split at h
        next =>
          obtain ⟨ip, hip, -⟩ := Option.map_eq_some_iff.mp h
          exact parseIPv6Text_text hip
        next zone _ =>
          split at h
          next => cases h
          next hne =>
            obtain ⟨ip, -, rfl⟩ := Option.map_eq_some_iff.mp h
            exact absurd hzone hne
      next => cases h

/-- An accepted prefix has a slash, and only digits and separators around it. -/
theorem parsePrefix_text {s : Bytes} {p : Prefix} (h : parsePrefix s = some p) :
    slash ∈ s ∧ ∀ b ∈ s, inPrefix b = true := by
  unfold parsePrefix at h
  split at h
  next => cases h
  next text length hcut =>
    obtain ⟨addr, haddr, h⟩ := Option.bind_eq_some_iff.mp h
    obtain ⟨bits, hbits, h⟩ := Option.bind_eq_some_iff.mp h
    split at h
    next hvalid =>
      rw [cutLast_eq_some hcut]
      refine ⟨by simp, List.forall_mem_append.mpr ⟨parseAddr_text haddr hvalid.1, ?_⟩⟩
      exact List.forall_mem_cons.mpr ⟨by decide, parseBits_text hbits⟩
    next => cases h

end ElchiShield.Go.Netip
