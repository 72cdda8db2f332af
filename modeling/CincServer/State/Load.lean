import CincServer.Api.Groups

/-!
# Loading groups from a state directory

A file is given by its name without extension and its contents in stored form.
-/

namespace CincServer.State
open Go Json Api Lib

structure File where
  base : GoString
  contents : Raw

def objectKey (obj : Members) (nameField base : GoString) : GoString :=
  match (get obj nameField).map str with
  | some (b :: rest) => b :: rest
  | _ => base

def loadGroup (org : GoString) (file : File) : Handler Unit := do
  match decodeObject file.contents with
  | none => .stop .internalError
  | some obj => Org.put org groupsColl (objectKey obj (lit "groupname") file.base) file.contents

def loadGroups (org : GoString) (files : List File) : Handler Nat := do
  files.forM (loadGroup org)
  return files.length

end CincServer.State
