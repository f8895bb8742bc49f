/-!
# Files and folders

What a file name leads to. `Folder.content` follows a name part by part through a folder
whose files are known.
-/

namespace LoxLang

/-- Why a file cannot be opened. -/
inductive OpenProblem where
  | missing
  /-- A part of the name before its end is a file and no folder. -/
  | throughFile
  | nameTooLong
  | denied
deriving Repr, DecidableEq

/-- The cause that is reported. -/
def OpenProblem.message : OpenProblem → String
  | missing => "No such file or directory (os error 2)"
  | throughFile => "Not a directory (os error 20)"
  | nameTooLong => "File name too long (os error 36)"
  | denied => "Permission denied (os error 13)"

/-- What there is under a file name. -/
inductive FileContent where
  | bytes (content : ByteArray)
  | folder
  | closed (problem : OpenProblem)

def FileContent.text (file : FileContent) : Except (String × String) String :=
  match file with
  | .closed problem => .error ("open", problem.message)
  | .folder => .error ("read", "Is a directory (os error 21)")
  | .bytes content =>
    match String.fromUTF8? content with
    | some text => .ok text
    | none => .error ("read", "stream did not contain valid UTF-8")

/-- The parts of a file name. An empty part, as at the end of `a/`, stays where it is. -/
def nameParts (name : String) : List String := name.splitOn "/"

/-- The files of a folder and of the folders in it, by the parts of their names. -/
abbrev Folder := List (List String × ByteArray)

namespace Folder

/-- The largest size of a part of a name, and of a whole name with its end, in bytes. -/
def partLimit : Nat := 255

/-- The largest size of a name, in bytes. -/
def nameLimit : Nat := 4095

/-- Is there a folder? It holds a file, further in or not. -/
def hasFolder (f : Folder) (path : List String) : Bool :=
  f.any fun (file, _) => path.isPrefixOf file

/-- Does a part of a name stay where it is? -/
def stays (part : String) : Bool := part == "" || part == "."

/-- What the remaining parts of a name lead to from a folder inside. Outside of the outermost
one only the folders around it are known. -/
def walk (f : Folder) : List String → List String → FileContent
  | _, [] => .folder
  | inside, part :: rest =>
    if stays part then walk f inside rest
    else if part == ".." then
      if inside.isEmpty then
        if rest.all fun p => stays p || p == ".." then .folder else .closed .missing
      else walk f inside.dropLast rest
    else if partLimit < part.utf8ByteSize then .closed .nameTooLong
    else
      let path := inside ++ [part]
      match f.lookup path with
      | some content => if rest.isEmpty then .bytes content else .closed .throughFile
      | none => if hasFolder f path then walk f path rest else .closed .missing

/-- What there is under a name. Of absolute names only the outermost folder is known. -/
def content (f : Folder) (name : String) : FileContent :=
  if nameLimit < name.utf8ByteSize then .closed .nameTooLong
  else if name.startsWith "/" then
    if (nameParts name).all fun p => stays p || p == ".." then .folder else .closed .missing
  else walk f [] (nameParts name)

end Folder

end LoxLang
