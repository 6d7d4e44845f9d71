import Eonos.Fat.Model
import Eonos.Initramfs.Model
import Eonos.Lib.Vectors
import Eonos.Terminal.SysRead

/-!
# The virtual file system

`vfs.rs`: file systems mounted at path prefixes.  A text is its list of
characters.  The boot archive and the FAT driver on the mounted volumes are a
parameter; so is what `Fat32::mount` returns for a device.
-/

namespace Eonos.Vfs

open Eonos.Lib
open Eonos.Terminal (FsError)
open Eonos.Fat (FatError DirEntry)

/-- What the mounts are served from. -/
structure Backend (Volume : Type) where
  archive : Option Initramfs.Slice
  /-- `Fat32::list` on what the device of the volume holds. -/
  list : Volume → List Char → Except FatError (List DirEntry)

inductive Filesystem (Volume : Type) where
  | initramfs
  | fat32 (fs : Volume)

/-- `Mount`; `prefix` is the field `pathPrefix`. -/
structure Mount (Volume : Type) where
  pathPrefix : List Char
  fs : Filesystem Volume
  sourceDevice : Option (List Char)

/-! ### Texts -/

/-- `str::trim_start_matches`. -/
def trimStart (c : Char) (text : List Char) : List Char :=
  text.dropWhile (· = c)

/-- `str::trim_end_matches`. -/
def trimEnd (c : Char) (text : List Char) : List Char :=
  (text.reverse.dropWhile (· = c)).reverse

/-- `str::strip_prefix`. -/
def stripPrefix (start text : List Char) : Option (List Char) :=
  if start.isPrefixOf text then some (text.drop start.length) else none

/-! ### Paths -/

/-- The loop of `normalize`; `parts` is its vector. -/
def normalizeLoop :
    List (List Char) → List (List Char) → Except FsError (List (List Char))
  | [], parts => .ok parts
  | p :: rest, parts =>
    if p = [] ∨ p = ['.'] then normalizeLoop rest parts
    else if p = ['.', '.'] then
      if parts = [] then .error .invalidPath
      else normalizeLoop rest parts.dropLast
    else normalizeLoop rest (parts ++ [p])

def normalize (path : List Char) : Except FsError (List Char) := do
  let parts ← normalizeLoop (path.splitOn '/') []
  return '/' :: ['/'].intercalate parts

section

variable {Volume : Type}

/-- The closure of `route`. -/
def routeOne (path : List Char) (m : Mount Volume) : Option (Mount Volume × List Char) :=
  if m.pathPrefix = ['/'] then some (m, trimStart '/' path)
  else if path = m.pathPrefix then some (m, [])
  else (stripPrefix m.pathPrefix path).bind fun tail =>
    if tail.head? = some '/' then some (m, trimStart '/' tail) else none

def route (mounts : List (Mount Volume)) (path : List Char) : Option (Mount Volume × List Char) :=
  maxByKey (fun routed => Fat.len routed.1.pathPrefix)
    (mounts.filterMap (routeOne path))

/-! ### Mounting -/

/-- `init`, whatever was mounted before. -/
def init : List (Mount Volume) := [⟨['/'], .initramfs, none⟩]

/-- `mount_fat32_inner`; `mounted` is what `Fat32::mount` returned. -/
def mountFat32Inner (path : List Char) (sourceDevice : Option (List Char))
    (mounted : Except FatError Volume) (mounts : List (Mount Volume)) :
    Except FsError (List (Mount Volume)) :=
  if path.head? ≠ some '/' then .error .invalidPath
  else do
    let pathPrefix ← normalize path
    if pathPrefix = ['/'] then .error .invalidPath
    else
      match mounted with
      | .error _ => .error .io
      | .ok fs =>
        if mounts.any fun m => m.pathPrefix = pathPrefix ||
            (sourceDevice.isSome && m.sourceDevice == sourceDevice) then
          .error .invalidPath
        else .ok (mounts ++ [⟨pathPrefix, .fat32 fs, sourceDevice⟩])

/-! ### Listing -/

def mapFatError : FatError → FsError
  | .notFound => .notFound
  | .notDirectory => .notDirectory
  | .isDirectory => .isDirectory
  | .io => .io
  | .tooLarge => .tooLarge
  | .noSpace => .noSpace
  | .invalidName => .invalidName
  | .alreadyExists => .alreadyExists
  | .directoryNotEmpty => .directoryNotEmpty
  | _ => .io

/-- One turn of the loop over the archive in `list`. -/
def listEntry (dir : List Char) (out : List DirEntry) (e : Initramfs.Entry) : List DirEntry :=
  match stripPrefix dir e.name with
  | none => out
  | some rest =>
    if rest = [] then out
    else
      let name := (rest.splitOn '/').headD rest
      if out.any fun entry => entry.name = name then out
      else
        let isDir := rest.contains '/'
        out ++ [⟨name, isDir,
          if isDir then 0 else e.data.length % 2 ^ 32⟩]

/-- The branch of `list` for the boot archive. -/
def listInitramfs (archive : Option Initramfs.Slice) (inner : List Char) :
    Except FsError (List DirEntry) :=
  let dir := if inner = [] then [] else trimEnd '/' inner ++ ['/']
  let out := (Initramfs.entries archive).collect.foldl (listEntry dir) []
  if inner ≠ [] ∧ (Initramfs.find archive inner).isSome = true then
    .error .notDirectory
  else if out = [] ∧ inner ≠ [] then .error .notFound
  else .ok out

def listFilesystem (b : Backend Volume) (fs : Filesystem Volume)
    (inner : List Char) : Except FsError (List DirEntry) :=
  match fs with
  | .fat32 fs => (b.list fs inner).mapError mapFatError
  | .initramfs => listInitramfs b.archive inner

/-- What is left of a mount's prefix behind the listed path, if it is to be
looked at. -/
def childRest (path pathPrefix : List Char) : Option (List Char) :=
  if path = ['/'] then some (trimStart '/' pathPrefix)
  else (stripPrefix (trimEnd '/' path) pathPrefix).map (trimStart '/')

/-- One turn of the second loop of `list`: mounted file systems appear as
directories in their parent mount. -/
def listChild (path : List Char) (out : List DirEntry) (child : Mount Volume) : List DirEntry :=
  if child.pathPrefix = path then out
  else
    match childRest path child.pathPrefix with
    | none => out
    | some rest =>
      let name := (rest.splitOn '/').headD []
      if name = [] then out
      else if out.any fun e => e.name = name then out
      else out ++ [⟨name, true, 0⟩]

def list (b : Backend Volume) (mounts : List (Mount Volume))
    (path : List Char) : Except FsError (List DirEntry) := do
  let path ← normalize path
  match route mounts path with
  | none => .error .notFound
  | some (m, inner) => do
      let out ← listFilesystem b m.fs inner
      return mounts.foldl (listChild path) out

end

end Eonos.Vfs
