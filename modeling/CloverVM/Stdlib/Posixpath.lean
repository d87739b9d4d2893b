import CloverVM.Stdlib.Exceptions
import CloverVM.Stdlib.PythonString

/-!
# Paths

`join`, `split`, `splitext`, `normpath`, `abspath` and `relpath` of
`posixpath.py` on `str` paths.  The current directory is a parameter.  Every
slice and index of these functions has bounds that are not negative.
-/

namespace CloverVM.Stdlib.Posixpath

open CloverVM.Runtime

def slash : CodePoint := ch '/'

def dot : CodePoint := ch '.'

def sep : Str := [slash]

def curdir : Str := [dot]

def pardir : Str := [dot, dot]

/-- `_all_sep` -/
def allSep (path : Str) : Bool :=
  path.length > 0 ∧ path.count slash = path.length

def isabs (path : Str) : Bool := startswith path sep

/-- One turn of the loop of `join`. -/
def joinItem (result item : Str) : Str :=
  if startswith item sep then item
  else if result = [] ∨ endswith result sep then result ++ item
  else result ++ sep ++ item

def join (path : Str) (paths : List Str) : Str := paths.foldl joinItem path

def split (path : Str) : Str × Str :=
  let sepIdx := rfind path slash
  if sepIdx < 0 then ([], path)
  else
    let head := path.take (sepIdx + 1).toNat
    let tail := path.drop (sepIdx + 1).toNat
    let head := if !allSep head then rstrip head slash else head
    (head, tail)

/-- `while idx < dot_idx and path[idx] == extsep` -/
def skipDots (path : Str) (dotIdx idx : Int) : Int :=
  if idx < dotIdx ∧ path[idx.toNat]? = some dot then
    skipDots path dotIdx (idx + 1)
  else idx
termination_by (dotIdx - idx).toNat
decreasing_by omega

def splitext (path : Str) : Str × Str :=
  let sepIdx := rfind path slash
  let dotIdx := rfind path dot
  let filenameStart := sepIdx + 1
  if dotIdx ≤ filenameStart then (path, [])
  else if skipDots path dotIdx filenameStart = dotIdx then (path, [])
  else (path.take dotIdx.toNat, path.drop dotIdx.toNat)

/-- `initial_slashes`, with `False` and `True` as 0 and 1. -/
def initialSlashes (path : Str) : Nat :=
  let initial := startswith path sep
  if initial ∧ startswith path (sep ++ sep) ∧
      !startswith path (sep ++ sep ++ sep) then 2
  else if initial then 1 else 0

/-- One turn of the loop of `normpath`. -/
def normComponent (initialSlashes : Nat) (newComps : List Str) (comp : Str) :
    List Str :=
  if comp = [] ∨ comp = curdir then newComps
  else if comp ≠ pardir ∨ (initialSlashes = 0 ∧ newComps.length = 0) ∨
      (newComps.length > 0 ∧ newComps.getLast? = some pardir) then
    newComps ++ [comp]
  else if newComps.length > 0 then newComps.dropLast
  else newComps

def normpath (path : Str) : Str :=
  if path = [] then curdir
  else
    let initialSlashes := initialSlashes path
    let comps := Stdlib.split path slash
    let newComps := comps.foldl (normComponent initialSlashes) []
    let result := Stdlib.join slash newComps
    let result := if initialSlashes ≠ 0 then sep ++ result else result
    let result := if initialSlashes = 2 then sep ++ result else result
    if result = [] then curdir else result

def abspath (cwd path : Str) : Str :=
  if isabs path then normpath path else normpath (join cwd [path])

/-- `_path_parts` -/
def pathParts (path : Str) : List Str :=
  let normalized := normpath path
  let stripped := strip normalized slash
  if stripped = [] then [] else Stdlib.split stripped slash

/-- `while idx < limit and start_parts[idx] == path_parts[idx]` -/
def commonLoop (startParts pathParts : List Str) (limit idx : Nat) : Nat :=
  if idx < limit ∧ startParts[idx]? = pathParts[idx]? then
    commonLoop startParts pathParts limit (idx + 1)
  else idx
termination_by limit - idx
decreasing_by omega

/-- The two loops that collect the result, from `idx` on. -/
def relativeParts (startParts pathParts : List Str) (idx : Nat) : List Str :=
  List.replicate (startParts.length - idx) pardir ++ pathParts.drop idx

def relpath (cwd path start : Str) : Except BuiltinException Str :=
  if path = [] then .error valueError
  else
    let startParts := pathParts (abspath cwd start)
    let pathParts := pathParts (abspath cwd path)
    let limit :=
      if pathParts.length < startParts.length then pathParts.length
      else startParts.length
    let idx := commonLoop startParts pathParts limit 0
    let resultParts := relativeParts startParts pathParts idx
    if resultParts.length = 0 then .ok curdir
    else .ok (Stdlib.join slash resultParts)

end CloverVM.Stdlib.Posixpath
