import FalconAS.Http.Data
import FalconAS.Seq.Find

/-!
# `Filesystem`

`src/Filesystem.cpp`, the directory listing of `src/Helper.hpp`, and `Configuration::mapStaticFSData`. What the
operating system and the libraries answer is given by `OS`. The directories do not change while they are read. The
results of `mmap` are not used, so these calls are left out.
-/

namespace FalconAS.Static

open FalconAS.Http FalconAS.Seq

def slash : UInt8 := 47

def dot : UInt8 := 46

/-! ## Strings -/

inductive Fault where
  | filesystemError
  | outOfRange
  | exit
  deriving DecidableEq

/-- `FindPos + 1`, for the last position of a byte. It is 0 for `npos`. -/
def behindLast (c : UInt8) (s : Bytes) : Nat :=
  match rfind [c] s s.length with
  | some i => i + 1
  | none => 0

def substr (s : Bytes) (pos count : Nat) : Except Fault Bytes :=
  if s.length < pos then .error .outOfRange else .ok ((s.drop pos).take count)

/-! ## Files -/

structure FileProperties where
  fileDescriptor : Int := 0
  fileSize : UInt32 := 0
  fileName : Bytes := []
  fileExtension : Bytes := []
  mimeType : Bytes := []
  eTag : Bytes := []
  lastModifiedString : Bytes := []
  lastModifiedSeconds : Bytes := []
  deriving DecidableEq

/-- What system calls and libraries answer. `iterate` has the paths that a `recursive_directory_iterator` comes to, or
`none` if it throws, `extension` is that of `path`, and `openFile` is given how many files were opened before. -/
structure OS where
  iterate : Bytes → Option (List Bytes)
  extension : Bytes → Bytes
  openFile : Nat → Bytes → Int
  stSize : Int → Int
  content : Bytes → Option Bytes
  hash : Bytes → UInt64

/-- What Boost.Filesystem documents. An entry's path is the path that is iterated over, with `/` and names added, where
no `/` is added behind one. An extension starts at the last dot of the last name. -/
structure OS.Documented (os : OS) : Prop where
  below_of_mem_iterate : ∀ {path file : Bytes} {paths : List Bytes},
    os.iterate (path ++ [slash]) = some paths → file ∈ paths → path ++ [slash] <+: file
  suffix_of_extension : ∀ {file fileExtension : Bytes}, os.extension file = dot :: fileExtension →
    dot :: fileExtension <:+ file ∧ dot ∉ fileExtension ∧ slash ∉ fileExtension

def mimeRelations : List (Bytes × Bytes) :=
  [(ofString "html", ofString "text/html"),
    (ofString "js", ofString "text/javascript"),
    (ofString "json", ofString "application/json"),
    (ofString "css", ofString "text/css"),
    (ofString "png", ofString "image/png"),
    (ofString "jpg", ofString "image/jpg"),
    (ofString "svg", ofString "image/svg+xml"),
    (ofString "woff", ofString "font/woff"),
    (ofString "woff2", ofString "font/woff2"),
    (ofString "ico", ofString "image/png"),
    (ofString "txt", ofString "text/plain")]

def mimeTypeOf (fileExtension : Bytes) : Bytes :=
  (mimeRelations.lookup fileExtension).getD (ofString "application/octet-stream")

/-- `operator<<` with `std::hex`. -/
def hex (n : UInt64) : Bytes := ofString (String.ofList (Nat.toDigits 16 n.toNat))

def getDirListingByFiletype (os : OS) (path fileType : Bytes) : Except Fault (List Bytes) :=
  match os.iterate path with
  | none => .error .filesystemError
  | some paths => .ok (paths.filter fun file => fileType = os.extension file)

structure Filesystem where
  basePath : Bytes
  path : Bytes
  mimetypes : List Bytes
  files : List Bytes := []
  filesExtended : List (Bytes × FileProperties) := []
  completePath : Bytes := []

namespace Filesystem

def staticPath (fs : Filesystem) : Bytes := fs.basePath ++ fs.path ++ ofString "/static"

def initFiles (os : OS) (fs : Filesystem) : Except Fault Filesystem := do
  let completePath := fs.basePath ++ fs.path ++ ofString "/static" ++ [slash]
  let files ← fs.mimetypes.foldlM
    (fun files mimetype => do
      let tmpFiles ← getDirListingByFiletype os completePath (dot :: mimetype)
      return files ++ tmpFiles)
    fs.files
  return { fs with completePath := completePath, files := files }

/-- `getFileEtag`. A file that cannot be read ends the process. -/
def getFileEtag (os : OS) (file : Bytes) : Except Fault Bytes :=
  match os.content file with
  | none => .error .exit
  | some content => .ok (hex (os.hash content))

/-- The key and the properties of a file that was opened. -/
def fileProperties (os : OS) (fs : Filesystem) (file : Bytes) (fd : Int) : Except Fault (Bytes × FileProperties) := do
  let fileSize := UInt32.ofInt (os.stSize fd)
  let findPos := behindLast slash file
  let fileName ← substr file findPos (file.length + 1 - findPos)
  let filePath ← substr file 0 (if findPos = 0 then file.length else findPos - 1)
  let findPos := behindLast dot fileName
  let fileExtension ← substr fileName findPos (file.length + 1 - findPos)
  let replacePath := fs.basePath ++ fs.path ++ ofString "/static"
  let relPath ← substr filePath replacePath.length (filePath.length - replacePath.length)
  let eTag ← getFileEtag os file
  return (relPath ++ slash :: fileName,
    { fileDescriptor := fd
      fileSize := fileSize
      fileName := fileName
      fileExtension := fileExtension
      mimeType := mimeTypeOf fileExtension
      eTag := eTag })

/-- `unordered_map::emplace`: a key that is already there keeps its value. -/
def emplace (entries : List (Bytes × FileProperties)) (entry : Bytes × FileProperties) :
    List (Bytes × FileProperties) :=
  if (entries.lookup entry.1).isSome then entries else entries ++ [entry]

/-- The turn of the loop of `processFileProperties` for one file. -/
def processFile (os : OS) (fs : Filesystem) (opened : Nat) (file : Bytes) : Except Fault Filesystem := do
  let fd := os.openFile opened file
  if fd > 0 then
    let entry ← fs.fileProperties os file fd
    return { fs with filesExtended := emplace fs.filesExtended entry }
  else return fs

/-- `processFileProperties`, with the number of files that were opened before. -/
def processFileProperties (os : OS) (fs : Filesystem) (opened : Nat) : Except Fault Filesystem :=
  (fs.files.zipIdx opened).foldlM (fun fs file => fs.processFile os file.2 file.1) fs

def checkFileExists (fs : Filesystem) (file : Bytes) : Bool := (fs.filesExtended.lookup file).isSome

def getFilePropertiesByFile (fs : Filesystem) (file : Bytes) : FileProperties :=
  (fs.filesExtended.lookup file).getD {}

end Filesystem

/-- The turn of the loop of `mapStaticFSData` for one namespace. -/
def mapNamespace (os : OS) (basePath : Bytes) (mimetypes : List Bytes) (opened : Nat) (path : Bytes) :
    Except Fault (Filesystem × Nat) := do
  let fs ← Filesystem.initFiles os { basePath := basePath, path := path, mimetypes := mimetypes }
  let fs ← fs.processFileProperties os opened
  return (fs, opened + fs.files.length)

/-- `mapStaticFSData`, on the hosts and the paths of their namespaces in the order of the map. -/
def mapStaticFSData (os : OS) (basePath : Bytes) (mimetypes : List Bytes) :
    Nat → List (Bytes × Bytes) → Except Fault (List (Bytes × Filesystem))
  | _, [] => .ok []
  | opened, (host, path) :: namespaces => do
      let (fs, opened) ← mapNamespace os basePath mimetypes opened path
      let rest ← mapStaticFSData os basePath mimetypes opened namespaces
      return (host, fs) :: rest

end FalconAS.Static
