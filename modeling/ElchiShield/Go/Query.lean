import ElchiShield.Go.Path

/-! # Query strings

What the shield uses of package `net/url` for the part of a path behind the question mark. -/
namespace ElchiShield.Go

/-- `url.QueryUnescape`: as `pathUnescape`, and a plus sign is a space. -/
def queryUnescape : Bytes → Option Bytes
  | [] => some []
  | c :: rest =>
    if c = ch '%' then
      match rest with
      | h :: l :: rest =>
        match hexVal h, hexVal l with
        | some x, some y => (queryUnescape rest).map ((x * 16 + y) :: ·)
        | _, _ => none
      | _ => none
    else (queryUnescape rest).map ((if c = ch '+' then ch ' ' else c) :: ·)

/-- One setting of a query; an empty one is skipped, and one with a semicolon is an error. -/
def parseSetting (s : Bytes) : Option (Option (Bytes × Bytes)) :=
  if s.contains (ch ';') then none
  else if s = [] then some none
  else
    let (key, value) := (cut (ch '=') s).getD (s, [])
    match queryUnescape key, queryUnescape value with
    | some key, some value => some (some (key, value))
    | _, _ => none

/-- `url.ParseQuery`; `none` when it returns an error. -/
def parseQuery (query : Bytes) : Option (List (Bytes × Bytes)) :=
  ((query.splitOn (ch '&')).mapM parseSetting).map List.reduceOption

/-- `Values.Get`: the first value of a key. -/
def queryGet (vals : List (Bytes × Bytes)) (name : Bytes) : Bytes := (vals.lookup name).getD []

example : parseQuery (ascii "a=1&&b=x%20y+z&a=2") =
    some [(ascii "a", ascii "1"), (ascii "b", ascii "x y z"), (ascii "a", ascii "2")] := by
  decide +kernel

end ElchiShield.Go
