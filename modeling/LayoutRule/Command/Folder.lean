import LayoutRule.Path
import LayoutRule.Text.Quoted

/-!
# Files

A `Folder` is a directory with what its files hold. Reading a file fails when its path leads
nowhere, to a directory, or through a file, or when a name on the way is longer than a name can be;
a path is followed from left to right, so the first of these counts. The bytes of a file are read as
UTF-8 with every line end made a newline; a byte order mark stays.
-/

namespace LayoutRule

/-- Why a file cannot be read. -/
inductive FileError where
  | missing
  | notDirectory
  | directory
  | tooLong
  /-- The path holds a character of code zero, which no path can. -/
  | zeroByte
deriving DecidableEq, Repr

namespace FileError

/-- What is reported about a path. -/
def message (e : FileError) (path : Path) : String :=
  match e with
  | .missing => "[Errno 2] No such file or directory: " ++ quoted path.toString
  | .notDirectory => "[Errno 20] Not a directory: " ++ quoted path.toString
  | .directory => "[Errno 21] Is a directory: " ++ quoted path.toString
  | .tooLong => "[Errno 36] File name too long: " ++ quoted path.toString
  | .zeroByte => "embedded null byte"

end FileError

/-- The files of a directory, each by the components of its path. -/
structure Folder where
  /-- The files. -/
  files : List (List String × ByteArray)

namespace Folder

/-- The longest name of a file or directory, in bytes. -/
def maxName : Nat := 255

/-- The longest path, in bytes. -/
def maxPath : Nat := 4095

/-- Whether a path leads to one of the folder's directories, the folder itself among them. -/
def isDirectory (f : Folder) (parts : List String) : Bool :=
  parts.isEmpty || f.files.any fun file => parts.isPrefixOf file.1 && parts != file.1

/-- Why a path that leads out of the folder cannot be read: outside nothing is known but the
directories above. -/
def outside (parts : List String) : FileError :=
  match parts.find? (· ≠ "..") with
  | none => .directory
  | some part => if maxName < part.utf8ByteSize then .tooLong else .missing

/-- Follows the rest of a path from the directory `here` of the folder. -/
def follow (f : Folder) (here : List String) : List String → Except FileError ByteArray
  | [] => .error .directory
  | part :: rest =>
    if part = ".." then
      if here.isEmpty then .error (outside rest) else f.follow here.dropLast rest
    else if maxName < part.utf8ByteSize then .error .tooLong
    else
      match f.files.lookup (here ++ [part]) with
      | some bytes => if rest.isEmpty then .ok bytes else .error .notDirectory
      | none =>
        if f.isDirectory (here ++ [part]) then f.follow (here ++ [part]) rest else .error .missing

/-- The bytes of the file at a path. -/
def read (f : Folder) (path : Path) : Except FileError ByteArray :=
  if path.hasZero then .error .zeroByte
  else if maxPath < path.toString.utf8ByteSize then .error .tooLong
  else if path.root = "" then f.follow [] path.parts
  else .error (outside path.parts)

end Folder

namespace Text

/-- Makes every line end a newline: a carriage return, alone or before a newline. -/
def newlines : List Char → List Char
  | '\r' :: '\n' :: rest => '\n' :: newlines rest
  | '\r' :: rest => '\n' :: newlines rest
  | c :: rest => c :: newlines rest
  | [] => []

/-- The text of a file. -/
def ofBytes? (bytes : ByteArray) : Option Text :=
  (String.fromUTF8? bytes).map fun s => ⟨(newlines s.toList).toArray⟩

end Text

end LayoutRule
