import ElchiShield.Config.Validate
import ElchiShield.Go.Path

/-! # Loading the config directory

Package `config`, load.go and parse.go. The directory may change while it is read: what
listing it and reading each file answer are independent parts of a `DirView`, so a listed
file may be gone when it is read. -/
namespace ElchiShield.Config
open ElchiShield.Go

/-! ## Parsing -/

/-- The strict decoders; an error is the decoder's text. -/
class Decoder where
  json : Bytes → Except Bytes File
  yaml : Bytes → Except Bytes File

def backquote : UInt8 := 0x60

/-- The scanner of `redactValueSnippets`; `pending` is the text since an open backquote. -/
def redactLoop : Option Bytes → Bytes → Bytes
  | none, [] => []
  | some pending, [] => backquote :: pending
  | none, b :: bs => if b = backquote then redactLoop (some []) bs else b :: redactLoop none bs
  | some pending, b :: bs =>
    if b = backquote then ascii "`<redacted>`" ++ redactLoop none bs
    else redactLoop (some (pending ++ [b])) bs

def redactValueSnippets (msg : Bytes) : Bytes := redactLoop none msg

section
variable [Library] [Heap] [Decoder]

def supportedExts : List Bytes := [".yaml", ".yml", ".json"].map ascii

def isConfigFile (path : Bytes) : Bool := supportedExts.contains (toLower (ext path))

/-- `Parse`; the decoder of a .json file also rejects trailing content. -/
def parse (file data : Bytes) : Except FileError File :=
  if toLower (ext file) = ascii ".json" then
    match Decoder.json data with
    | .ok f => .ok f
    | .error e => .error ⟨file, [], ⟨"parse json: %s", [.str (redactValueSnippets e)]⟩⟩
  else
    match Decoder.yaml data with
    | .ok f => .ok f
    | .error e => .error ⟨file, [], ⟨"parse yaml: %s", [.str (redactValueSnippets e)]⟩⟩

/-! ## Reading the directory -/

/-- How an access to the file system ends. -/
inductive Access (α : Type) where
  | ok (a : α)
  | notExist
  | failed (err : Bytes)

structure DirEntry where
  name : Bytes
  isDir : Bool

structure DirView where
  list : Access (List DirEntry)
  read : Bytes → Access Bytes

inductive LoadError where
  | emptyConfigDir
  | readDir (err : Bytes)
  | multi (errs : List FileError)

/-- The config files of a listing, in the order they are read. -/
def configNames (dir : Bytes) (entries : List DirEntry) : List Bytes :=
  sortStrings ((entries.filter fun e => !e.isDir && isConfigFile e.name).map fun e =>
    joinPath dir e.name)

/-- The reading loop of `ReadDir`. -/
def readFiles (read : Bytes → Access Bytes) : List Bytes → List ParsedFile × List FileError
  | [] => ([], [])
  | name :: rest =>
    let (parsed, errs) := readFiles read rest
    match read name with
    | .notExist => (parsed, errs)
    | .failed e => (parsed, ⟨name, [], ⟨"read: %w", [.str e]⟩⟩ :: errs)
    | .ok data => match parse name data with
      | .error e => (parsed, e :: errs)
      | .ok f => (⟨name, f⟩ :: parsed, errs)

/-- `ReadDir`. -/
def readDir (dir : Bytes) (view : DirView) : Except LoadError (List ParsedFile) :=
  match view.list with
  | .notExist => .error .emptyConfigDir
  | .failed e => .error (.readDir e)
  | .ok entries =>
    let names := configNames dir entries
    if names = [] then .error .emptyConfigDir
    else
      let (parsed, errs) := readFiles view.read names
      if errs = [] then .ok parsed else .error (.multi errs)

def load (dir : Bytes) (view : DirView) : Except LoadError MergedConfig :=
  match readDir dir view with
  | .error e => .error e
  | .ok parsed =>
    let merged := merge parsed
    let errs := parsed.flatMap (fun pf => validateFile pf.name pf.file) ++ validateMerged merged
    if errs = [] then .ok merged else .error (.multi errs)

end

end ElchiShield.Config
