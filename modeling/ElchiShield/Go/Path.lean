import ElchiShield.Go.Strings

/-! # Paths

The functions of packages `path`, `path/filepath` and `net/url` the shield calls. -/
namespace ElchiShield.Go

def slash : UInt8 := ch '/'
def dot : UInt8 := ch '.'

/-- One segment of `path.Clean`, on the stack of the segments kept so far. -/
def cleanSegment (rooted : Bool) (stack : List Bytes) (seg : Bytes) : List Bytes :=
  if seg = [] ∨ seg = [dot] then stack
  else if seg = [dot, dot] then
    match stack with
    | [] => if rooted then [] else [seg]
    | top :: rest => if top = [dot, dot] then seg :: stack else rest
  else seg :: stack

/-- `path.Clean`. -/
def cleanPath (p : Bytes) : Bytes :=
  let rooted := p.head? = some slash
  let segs := ((p.splitOn slash).foldl (cleanSegment rooted) []).reverse
  if rooted then slash :: join [slash] segs
  else if segs = [] then [dot]
  else join [slash] segs

/-- `filepath.Join` of two elements; empty ones are left out. -/
def joinPath (dir name : Bytes) : Bytes :=
  if dir = [] ∧ name = [] then []
  else if dir = [] then cleanPath name
  else if name = [] then cleanPath dir
  else cleanPath (dir ++ slash :: name)

/-- `filepath.Ext`: from the last dot of the last element on. -/
def ext (p : Bytes) : Bytes :=
  let base := match cutLast slash p with
    | some (_, base) => base
    | none => p
  match cutLast dot base with
  | some (_, e) => dot :: e
  | none => []

def hexVal (b : UInt8) : Option UInt8 :=
  if 48 ≤ b ∧ b ≤ 57 then some (b - 48)
  else if 97 ≤ b ∧ b ≤ 102 then some (b - 87)
  else if 65 ≤ b ∧ b ≤ 70 then some (b - 55)
  else none

/-- `url.PathUnescape`; `none` when a percent sign is not followed by two hex digits. -/
def pathUnescape : Bytes → Option Bytes
  | [] => some []
  | c :: rest =>
    if c = ch '%' then
      match rest with
      | h :: l :: rest =>
        match hexVal h, hexVal l with
        | some x, some y => (pathUnescape rest).map ((x * 16 + y) :: ·)
        | _, _ => none
      | _ => none
    else (pathUnescape rest).map (c :: ·)

end ElchiShield.Go
