/-!
# Files

File names and their extensions, what the program needs of a file system: reading a whole file and
writing one (`FileStore`), and files in memory on which its effects can be stated (`FileSystem`).
-/

namespace StackTape

/-! ## Extensions -/

/-- A file name with another extension. The extension starts at the last dot that is not the first
character; a name without one gets the new extension appended. A name of two dots and an extension
leaves `..` when the extension is taken off, which is the directory above and has no extension. -/
def withExtension (name extension : String) : String :=
  match name.toList.reverse.dropWhile fun c => c != '.' with
  | ['.', '.'] => ".."
  | '.' :: c :: rest => String.ofList (c :: rest).reverse ++ "." ++ extension
  | _ => name ++ "." ++ extension

/-- A path whose file name has another extension. -/
def pathWithExtension (path extension : String) : String :=
  let folder := (path.toList.reverse.dropWhile fun c => c != '/').reverse
  let name := (path.toList.reverse.takeWhile fun c => c != '/').reverse
  String.ofList folder ++ withExtension (String.ofList name) extension

/-! ## Access to files -/

/-- Why a file cannot be read or created. -/
inductive FileError where
  | notFound
  | notDirectory
  | isDirectory
  | nameTooLong
  | notText
  | other (text : String)
  deriving DecidableEq

/-- The text of a file error. -/
def FileError.message : FileError → String
  | notFound => "No such file or directory (os error 2)"
  | notDirectory => "Not a directory (os error 20)"
  | isDirectory => "Is a directory (os error 21)"
  | nameTooLong => "File name too long (os error 36)"
  | notText => "stream did not contain valid UTF-8"
  | other text => text

/-- Monads with access to files. -/
class FileStore (m : Type → Type) where
  /-- The content of the file at a path. -/
  read : String → m (Except FileError ByteArray)
  /-- Create the file at a path, or replace its content. -/
  write : String → ByteArray → m (Except FileError Unit)

/-! ## Files in memory -/

/-- Files in memory. Each is named by the directories that lead to it from the root, and its own
name. The working directory and those above it always exist. -/
structure FileSystem where
  workingDirectory : List String
  directories : List (List String)
  files : List (List String × ByteArray)

namespace FileSystem

/-- The largest number of bytes in the name of a file or directory. -/
def maxNameSize : Nat := 255

/-- The largest number of bytes in a path. -/
def maxPathSize : Nat := 4095

/-- The components of a path. -/
def components (path : String) : List String :=
  (path.toList.splitOn '/').map String.ofList

/-- Whether a component leaves the directory as it is. -/
def isTrivial (component : String) : Bool :=
  component = "" || component = "."

/-- Where a component leads from a directory. The directory above the root is the root. -/
def enter (dir : List String) (component : String) : List String :=
  if isTrivial component then dir
  else if component = ".." then dir.dropLast
  else dir ++ [component]

/-- Whether there is a directory of this name. -/
def isDirectory (fs : FileSystem) (name : List String) : Bool :=
  name.isPrefixOf fs.workingDirectory || fs.directories.contains name

/-- What a path leads to. -/
inductive Place where
  | directory
  | file (name : List String) (content : ByteArray)
  /-- A name that is free, in a directory that exists. -/
  | vacant (name : List String)
  /-- A name that is written as that of a directory, and the reason why it is none. -/
  | slashed (e : FileError)

/-- What an entry of a directory is, if it is no directory itself. -/
def entry (fs : FileSystem) (dir : List String) (component : String) : Except FileError Place :=
  if maxNameSize < component.utf8ByteSize then .error .nameTooLong
  else
    match fs.files.lookup (dir ++ [component]) with
    | some content => .ok (.file (dir ++ [component]) content)
    | none => .ok (.vacant (dir ++ [component]))

/-- Why an entry of a directory is no directory itself. -/
def obstacle (fs : FileSystem) (dir : List String) (component : String) : FileError :=
  match fs.entry dir component with
  | .error e => e
  | .ok (.file _ _) => .notDirectory
  | .ok _ => .notFound

/-- Follow the components of a path from a directory. -/
def follow (fs : FileSystem) (dir : List String) : List String → Except FileError Place
  | [] => .ok .directory
  | component :: rest =>
    if isTrivial component || component = ".." || fs.isDirectory (dir ++ [component]) then
      fs.follow (enter dir component) rest
    else if rest.isEmpty then fs.entry dir component
    else if rest.all fun c => c = "" then .ok (.slashed (fs.obstacle dir component))
    else .error (fs.obstacle dir component)

/-- The directory from which a path is followed: the root if the path begins with a slash, and else
the working directory. -/
def origin (fs : FileSystem) (path : String) : List String :=
  if path.toList.head? = some '/' then [] else fs.workingDirectory

/-- What a path leads to. -/
def locate (fs : FileSystem) (path : String) : Except FileError Place :=
  if maxPathSize < path.utf8ByteSize then .error .nameTooLong
  else fs.follow (fs.origin path) (components path)

/-- The content of the file at a path. -/
def read (fs : FileSystem) (path : String) : Except FileError ByteArray :=
  match fs.locate path with
  | .error e => .error e
  | .ok .directory => .error .isDirectory
  | .ok (.file _ content) => .ok content
  | .ok (.vacant _) => .error .notFound
  | .ok (.slashed e) => .error e

/-- Give the file of this name a content. -/
def put (fs : FileSystem) (name : List String) (content : ByteArray) : FileSystem :=
  { fs with files := (name, content) :: fs.files.filter fun file => file.1 ≠ name }

/-- Create the file at a path, or replace its content. No path that is written as that of a
directory is the path of a file. -/
def write (fs : FileSystem) (path : String) (content : ByteArray) :
    Except FileError FileSystem :=
  match fs.locate path with
  | .error e => .error e
  | .ok .directory | .ok (.slashed _) => .error .isDirectory
  | .ok (.file name _) | .ok (.vacant name) => .ok (fs.put name content)

/-- Add a file at a path from a directory, and the directories that the path leads through. -/
def add (fs : FileSystem) (content : ByteArray) (dir : List String) : List String → FileSystem
  | [] => fs.put dir content
  | component :: rest =>
    add { fs with directories := dir :: fs.directories } content (enter dir component) rest

/-- The file system with the given working directory that holds the given files, whose directories
are made for them. -/
def ofFiles (workingDirectory : List String) (files : List (String × ByteArray)) : FileSystem :=
  files.foldl (fun fs file => fs.add file.2 (fs.origin file.1) (components file.1))
    ⟨workingDirectory, [], []⟩

end FileSystem

instance : FileStore (StateM FileSystem) where
  read path := fun fs => (fs.read path, fs)
  write path content := fun fs =>
    match fs.write path content with
    | .ok fs' => (.ok (), fs')
    | .error e => (.error e, fs)

end StackTape
