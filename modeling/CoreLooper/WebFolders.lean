import CoreLooper.FilePaths
import CoreLooper.HttpPath
import CoreLooper.HttpTool
import CoreLooper.PathWalk

/-!
# The folders a web server opens files in

`HttpRequestHandler_File::Start` keeps requests in the mounted folders and in the web root by three
means: `ParseUrlParam` takes `../` out of the uri, `is_valid_path` counts the level of its
components, and `Virtual2LocalPathFile` puts the folder of a mount in the place of its name. The
level is counted from the virtual root, one above the folder. Where a file cannot be opened, the
next place is tried. Which files there are is not known.
-/
namespace CoreLooper.Http
open CStrings PathWalk File

/-- Names and paths are C strings. -/
structure Mount where
  mName : Bytes
  mPath : Bytes

/-- `StringTool::CompareNoCase` gives 0, for strings that are not empty. -/
def sameNoCase (a b : Bytes) : Prop := (cstr a).map toLower = (cstr b).map toLower

instance (a b : Bytes) : Decidable (sameNoCase a b) :=
  inferInstanceAs (Decidable ((cstr a).map toLower = (cstr b).map toLower))

/-- No two mounts have one name. -/
structure VirtualFolder where
  mMountPoints : List Mount
  named : ∀ m ∈ mMountPoints, cstr m.mName ≠ []
  distinct : mMountPoints.Pairwise fun a b => ¬ sameNoCase a.mName b.mName

/-- The first bytes of a client path up to a separator behind the first of them, and what is behind
the separator. -/
def splitRoot (clientPath : Bytes) : Bytes × Option Bytes :=
  let tail := clientPath.tail
  (clientPath.take 1 ++ tail.takeWhile (slash · ≠ 47),
    match tail.dropWhile (slash · ≠ 47) with
    | [] => none
    | _ :: relative => some relative)

/-- The mount has the name of the root folder, and a local folder. -/
def Mount.Serves (m : Mount) (clientPath : Bytes) : Prop :=
  sameNoCase (47 :: m.mName) clientPath ∧ m.mPath ≠ []

instance (m : Mount) (clientPath : Bytes) : Decidable (m.Serves clientPath) :=
  inferInstanceAs (Decidable (_ ∧ _))

/-- The buffer `clientPath` before it is cut. -/
def clientPath (virtualFullPathFile : Bytes) : Bytes :=
  (cstr virtualFullPathFile).take (maxPath - 1)

namespace VirtualFolder

def isNameExits (vf : VirtualFolder) (name : Bytes) : Bool :=
  vf.mMountPoints.any fun m => sameNoCase m.mName name

def addMount (vf : VirtualFolder) (name path : Bytes) : Option VirtualFolder :=
  if h : cstr name = [] ∨ vf.isNameExits name = true then none
  else some
    { mMountPoints := vf.mMountPoints ++ [⟨name, path⟩]
      named := by
        intro m hm
        rcases List.mem_append.mp hm with hm | hm
        · exact vf.named m hm
        · rw [List.mem_singleton.mp hm]
          exact fun hempty => h (Or.inl hempty)
      distinct := by
        rw [List.pairwise_append]
        refine ⟨vf.distinct, List.pairwise_singleton _ _, ?_⟩
        intro a ha b hb
        rw [List.mem_singleton.mp hb]
        intro hsame
        exact h (Or.inr (List.any_eq_true.mpr ⟨a, ha, decide_eq_true hsame⟩)) }

def virtual2LocalPathFile (vf : VirtualFolder) (virtualFullPathFile : Bytes) (bSuperUser : Bool) :
    Bytes :=
  if bSuperUser then virtualFullPathFile
  else
    let path := clientPath virtualFullPathFile
    if path.head? ≠ some 47 then []
    else if path.tail = [] then [47]
    else
      let (root, pszRelativePath) := splitRoot path
      match vf.mMountPoints.find? fun m => m.Serves root with
      | none => []
      | some m =>
          let relative := pszRelativePath.getD []
          if relative ≠ [] then cstr m.mPath ++ 47 :: relative else m.mPath

end VirtualFolder

/-- With virtual folders the uri begins with a slash. -/
def rootedUri (vm : Option VirtualFolder) (uri : Bytes) : Bytes :=
  match vm with
  | none => uri
  | some _ => if uri = [] then [47] else if uri.head? ≠ some 47 then 47 :: uri else uri

/-- The path of a mount, before it is copied. -/
def mappedPath (vm : Option VirtualFolder) (uri : Bytes) : Bytes :=
  match vm with
  | none => []
  | some vf => vf.virtual2LocalPathFile (rootedUri vm uri) false

/-- The path of a mount in `filename`. -/
def mappedFile (vm : Option VirtualFolder) (uri : Bytes) : Bytes :=
  pathMakePrettyString (mappedPath vm uri)

def webPath (vm : Option VirtualFolder) (mWebRootFolder uri : Bytes) : Bytes :=
  cstr mWebRootFolder ++ cstr (rootedUri vm uri)

def indexPath (mWebRootFolder : Bytes) : Bytes := cstr mWebRootFolder ++ ascii "/index.html"

/-- What `File::FileExists` and `File::fopen` find. -/
structure Files where
  fileExists : Bytes → Bool
  fopen : Bytes → Bool

/-- The places to look in. -/
inductive Source where
  | mapUriFile
  | virtualFolder
  | webRootFolder
  | index
  deriving DecidableEq, Repr

inductive Started where
  | onFileNoFound
  | onFileNoAuth
  | opened (source : Source) (szFileName : Bytes)
  deriving DecidableEq, Repr

/-- `Start` up to the file it opens. `mapUriFile` is `m_mapUriFile->GetString`, empty without an
entry. -/
def start (files : Files) (mapUriFile : Bytes → Bytes) (isAdmin : Bool) (vm : Option VirtualFolder)
    (mWebRootFolder uri : Bytes) : Started :=
  let filepath := cstr (mapUriFile (cstr uri))
  if isValidPath uri = false then .onFileNoFound
  else if filepath ≠ [] ∧ files.fileExists filepath ∧ isAdmin = false then .onFileNoAuth
  else if filepath ≠ [] ∧ files.fileExists filepath ∧ files.fopen filepath then
    .opened .mapUriFile filepath
  else if mappedPath vm uri ≠ [] ∧ files.fopen (mappedFile vm uri) then
    .opened .virtualFolder (mappedFile vm uri)
  else if files.fopen (webPath vm mWebRootFolder uri) then
    .opened .webRootFolder (webPath vm mWebRootFolder uri)
  else if files.fopen (indexPath mWebRootFolder) then .opened .index (indexPath mWebRootFolder)
  else .onFileNoFound

/-- The text of a path with slashes only, and one behind it. -/
def slashed (path : Bytes) : Bytes := (cstr path).map slash ++ [47]

/-- Where a path begins: at the root, or in the working directory. -/
def base (cwd : List Bytes) (path : Bytes) : List Bytes := if path.head? = some 47 then [] else cwd

/-- The place a path leads to. -/
def resolve (cwd : List Bytes) (path : Bytes) : List Bytes :=
  walk (ascii "..") (base cwd (slashed path)) (components (slashed path))

/-- The path leads to the folder or to a place in it. -/
def Below (cwd : List Bytes) (folder path : Bytes) : Prop :=
  resolve cwd folder <+: resolve cwd path

instance (cwd : List Bytes) (folder path : Bytes) : Decidable (Below cwd folder path) :=
  inferInstanceAs (Decidable (_ <+: _))

/-- Behind the place the path goes down again by the folders it climbs out of. -/
def Returns (place : List Bytes) (path : Bytes) : Prop :=
  place.drop (place.length - climbs (ascii "..") (components path)) <+:
    names (ascii "..") (components path)

/-- The last segment of a text, and what stands in front of it. -/
def lastSegment (text : Bytes) : Bytes := (text.reverse.takeWhile (· ≠ 47)).reverse

def front (text : Bytes) : Bytes := (text.reverse.dropWhile (· ≠ 47)).reverse

/-- Nothing is run together where a path is put behind the folder, or the place it leads to is
below all the same. -/
def Joins (cwd : List Bytes) (folder path : Bytes) : Prop :=
  let text := (cstr folder).map slash
  let w := lastSegment text
  let place := walk (ascii "..") (base cwd text) (components (front text))
  let cs := components (w ++ path)
  w = [] ∨ path = [] ∨ path.head? = some 47 ∨ w = ascii ".." ∨
    place.drop (place.length - climbs (ascii "..") cs) ++ components w <+: names (ascii "..") cs

/-- What `filename` takes of a path in the folder of the mount returns. Where the folder itself does
not fit, what there is of it has to lead into the folder. -/
def Mount.Keeps (cwd : List Bytes) (m : Mount) (relative : Bytes) : Prop :=
  let folder := cstr m.mPath
  if folder.length < maxPath - 1 then
    Returns (resolve cwd folder) (relative.take (maxPath - 2 - folder.length))
  else Below cwd folder (folder.take (maxPath - 1))

/-- With virtual folders the path behind the name of the mount that serves it is kept, and is not
missing altogether; without, the uri joins the web root. -/
def Kept (cwd : List Bytes) (vm : Option VirtualFolder) (mWebRootFolder uri : Bytes) : Prop :=
  isValidPath uri = true →
    match vm with
    | none => Joins cwd mWebRootFolder uri
    | some vf =>
        let (root, relative) := splitRoot (clientPath (rootedUri vm uri))
        rootedUri vm uri ≠ [47] ∧ ∀ m ∈ vf.mMountPoints, m.Serves root →
          m.Keeps cwd (relative.getD [])

variable {cwd : List Bytes} {folder path text uri x : Bytes}

theorem mem_of_replaceLoop {src dst : Bytes} {fuel : ℕ} {c : UInt8}
    (h : c ∈ replaceLoop src dst fuel text) : c ∈ text ∨ c ∈ dst := by
  induction fuel generalizing text with
  | zero => exact Or.inl h
  | succ fuel ih =>
      rw [replaceLoop] at h
      cases hfound : strstr text src with
      | none =>
          rw [hfound] at h
          exact Or.inl h
      | some pos =>
          rw [hfound] at h
          rcases List.mem_append.mp h with h | h
          · rcases List.mem_append.mp h with h | h
            · exact Or.inl (List.mem_of_mem_take h)
            · exact Or.inr h
          · exact (ih h).imp_left List.mem_of_mem_drop

namespace VirtualFolder

variable (vf : VirtualFolder)

end VirtualFolder

variable {vm : Option VirtualFolder} {mWebRootFolder : Bytes} {files : Files}
  {mapUriFile : Bytes → Bytes} {isAdmin : Bool} {source : Source}

/-- The only file there is. -/
def only (path : Bytes) : Files := ⟨fun _ => false, fun other => other = path⟩

end CoreLooper.Http
