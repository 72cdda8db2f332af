import CincServer.Api.Objects

/-!
# Cookbook manifests

A manifest lists its files in one of two shapes: in segment arrays up to API v1, in one "all_files"
array from v2. It may not repeat a member name anywhere.
-/

namespace CincServer.Api
open Go Json Lib

def cookbookNameRE : Regex Rune := plainName

def cookbookSegments : List GoString :=
  [lit "attributes", lit "definitions", lit "files", lit "libraries", lit "providers", lit "recipes",
   lit "resources", lit "root_files", lit "templates"]

def cookbookKeys : List GoString :=
  [lit "attributes", lit "chef_type", lit "cookbook_name", lit "definitions", lit "files", lit "frozen?",
   lit "json_class", lit "libraries", lit "metadata", lit "name", lit "providers", lit "recipes",
   lit "resources", lit "root_files", lit "templates", lit "version"]

def cookbookKeysV2 : List GoString :=
  [lit "all_files", lit "chef_type", lit "cookbook_name", lit "frozen?", lit "json_class", lit "metadata",
   lit "name", lit "version"]

def validateCookbookURL (name version : GoString) : Option GoString :=
  if !validCookbookVersion version then some (lit "Invalid cookbook version '" ++ version ++ lit "'.")
  else if !matchString cookbookNameRE name then
    some (lit "Invalid cookbook name '" ++ name ++
      lit "' using regex: 'Malformed cookbook name. Must only contain A-Z, a-z, 0-9, _, . or -'.")
  else none

def cookbookClass : GoString := lit "Chef::CookbookVersion"

def cookbookType : GoString := lit "cookbook_version"

def manifestDefaults : Members :=
  [(lit "json_class", .string cookbookClass), (lit "chef_type", .string cookbookType), (lit "frozen?", .bool false)]

def withDefaults (obj : Members) : Members :=
  manifestDefaults.foldl (fun obj (name, v) => if (get obj name).isSome then obj else set obj name v) obj

def invalidKey (name : GoString) : GoString := lit "Invalid key " ++ name ++ lit " in request body"

def keysError (keys : List GoString) (obj : Members) : Option GoString :=
  (obj.find? fun m => m.1 ∉ keys).map fun m => invalidKey m.1

def exactError (obj : Members) (want : GoString × GoString) : Option GoString :=
  match get obj want.1 with
  | none => some (fieldMissing want.1)
  | some v => if isString v want.2 then none else some (fieldInvalid want.1)

def erlangText : Value → GoString
  | .string s => s
  | .number literal => literal
  | v => Chefjson.marshal v

def metadataInvalid (name : GoString) : GoString :=
  lit "Field 'metadata." ++ name ++ lit "' invalid"

def validateConstraintMap (metadata : Members) (name : GoString) : Option GoString :=
  match get metadata name with
  | none => none
  | some (.object constraints) => constraints.findSome? fun m =>
    if !matchString cookbookNameRE m.1 then
      some (lit "Invalid key '" ++ m.1 ++ lit "' for metadata." ++ name)
    else if validConstraint m.2 then none
    else some (lit "Invalid value '" ++ erlangText m.2 ++ lit "' for metadata." ++ name)
  | some _ => some (metadataInvalid name)

def isStringValue : Value → Bool
  | .string _ => true
  | _ => false

def isObjectValue : Value → Bool
  | .object _ => true
  | _ => false

def metadataVersionError (metadata : Members) (urlVersion : GoString) : Option GoString :=
  match get metadata (lit "version") with
  | none => some (lit "Field 'metadata.version' missing")
  | some v => if isString v urlVersion then none else some (metadataInvalid (lit "version"))

def metadataNameError (metadata : Members) : Option GoString :=
  match get metadata (lit "name") with
  | some (.string s) => if matchString cookbookNameRE s then none else some (metadataInvalid (lit "name"))
  | some _ => some (metadataInvalid (lit "name"))
  | none => none

def metadataStrings : List GoString :=
  [lit "description", lit "long_description", lit "maintainer", lit "maintainer_email", lit "license"]

def constraintMaps (allFiles : Bool) : List GoString :=
  [lit "platforms", lit "dependencies"] ++
    if allFiles then [] else [lit "recommendations", lit "suggestions", lit "conflicting", lit "replacing"]

def validateCookbookMetadata (metadata : Members) (urlVersion : GoString) (allFiles : Bool) :
    Option GoString :=
  metadataVersionError metadata urlVersion <|> metadataNameError metadata <|>
    (metadataStrings.find? fun name => (get metadata name).any (!isStringValue ·)).map metadataInvalid <|>
    (constraintMaps allFiles).findSome? (validateConstraintMap metadata) <|>
    if !allFiles && (get metadata (lit "groupings")).any (!isObjectValue ·) then
      some (metadataInvalid (lit "groupings"))
    else none

def validFileEntry : Value → Bool
  | .object entry => [lit "name", lit "path", lit "checksum", lit "specificity"].all fun key =>
    (get entry key).any isStringValue
  | _ => false

def segmentError (obj : Members) (segment : GoString) : Option GoString :=
  match get obj segment with
  | none => none
  | some (.array files) =>
    if files.all validFileEntry then none
    else some (lit "Invalid element in array value of '" ++ segment ++ lit "'.")
  | some _ => some (fieldInvalid segment)

def metadataError (obj : Members) (urlVersion : GoString) (allFiles : Bool) : Option GoString :=
  match get obj (lit "metadata") with
  | none => some (fieldMissing (lit "metadata"))
  | some (.object metadata) => validateCookbookMetadata metadata urlVersion allFiles
  | some _ => some (fieldInvalid (lit "metadata"))

def validateCookbookManifest (obj : Members) (urlName urlVersion : GoString) (allFiles : Bool) :
    Option GoString :=
  keysError (if allFiles then cookbookKeysV2 else cookbookKeys) obj <|>
    [(lit "name", urlName ++ lit "-" ++ urlVersion), (lit "cookbook_name", urlName),
      (lit "json_class", cookbookClass), (lit "chef_type", cookbookType)].findSome? (exactError obj) <|>
    metadataError obj urlVersion allFiles <|>
    (if allFiles then [lit "all_files"] else cookbookSegments).findSome? (segmentError obj) <|>
    if (get obj (lit "version")).any (!isString · urlVersion) then some (fieldInvalid (lit "version"))
    else none

def checkManifestShape (r : Request) (obj : Members) : Option GoString :=
  (obj.find? fun m => if r.apiVersion ≥ 2 then m.1 ∈ cookbookSegments else m.1 = lit "all_files").map
    fun m => invalidKey m.1

def decodeManifestBody (r : Request) : Handler Members := do
  let obj ← readObjectBody r
  refuseIf (membersRepeat obj) 400 (lit "invalid JSON body")
  return obj

def ownChecksum (members : List (GoString × Value)) : List GoString :=
  match get members (lit "checksum") with
  | some (.string sum) => [sum]
  | _ => []

mutual

def checksums : Value → List GoString
  | .object members => ownChecksum members ++ memberChecksums members
  | .array elems => elemChecksums elems
  | _ => []

def elemChecksums : List Value → List GoString
  | [] => []
  | v :: rest => checksums v ++ elemChecksums rest

def memberChecksums : List (GoString × Value) → List GoString
  | [] => []
  | (_, v) :: rest => checksums v ++ memberChecksums rest

end

def manifestChecksums (obj : Members) : List GoString := checksums (.object (firstOf [] obj))

def storedChecksums (raw : Raw) : Option (List GoString) :=
  (unmarshalMap raw).map fun obj => checksums (.object (contents obj).toList)

def asString : Option Value → GoString
  | some (.string s) => s
  | _ => []

def replaceMember (name : GoString) (new : Members) : Members → Members
  | [] => []
  | (found, v) :: rest => if found = name then new ++ rest else (found, v) :: replaceMember name new rest

def fileSegment (entry : Members) : GoString × Value :=
  let name := asString (get entry (lit "name"))
  let (segment, rest) := match cut (lit "/") name with
    | some (segment, rest) => if segment ∈ cookbookSegments then (segment, rest) else (lit "root_files", name)
    | none => (lit "root_files", name)
  (segment, .object (set entry (lit "name") (.string rest)))

def fileEntries : Value → List Members
  | .array files => files.filterMap fun
      | .object entry => some entry
      | _ => none
  | _ => []

def toSegments (obj : Members) : Members :=
  match get obj (lit "all_files") with
  | none => obj
  | some all =>
    let files := (fileEntries all).map fileSegment
    replaceMember (lit "all_files") (cookbookSegments.map fun segment =>
      (segment, .array ((files.filter (·.1 = segment)).map Prod.snd).reverse)) obj

def prefixedFiles (segment : GoString) (v : Value) : List Value :=
  (fileEntries v).map fun entry =>
    .object (set entry (lit "name") (.string (segment ++ lit "/" ++ asString (get entry (lit "name")))))

def toAllFiles (obj : Members) : Members :=
  match cookbookSegments.find? fun segment => (get obj segment).isSome with
  | none => obj
  | some first =>
    let files := cookbookSegments.flatMap fun segment =>
      ((get obj segment).map (prefixedFiles segment)).getD []
    (replaceMember first [(lit "all_files", .array files)] obj).filter fun m => m.1 ∉ cookbookSegments

def shapeManifest (obj : Members) (version : Int) : Members :=
  if version ≥ 2 then toAllFiles obj else toSegments obj

/-!
## Cookbooks, cookbook artifacts and their files

The files of an organization are blobs kept under their checksum. A manifest is stored only when
every file it lists is there; removing one collects the files no manifest lists any more.
-/

def cookbooksColl : GoString := lit "cookbooks"

def artifactsColl : GoString := lit "cookbook_artifacts"

def sandboxesColl : GoString := lit "sandboxes"

inductive FileStoreOp
  | get
  | put

structure FileEnv where
  md5 : Raw → GoString
  sandboxID : (sortedSums : List GoString) → GoString
  fileStoreURL : (baseURL org checksum : GoString) → FileStoreOp → GoString
  now : GoString

def putFile (files : FileEnv) (r : Request) (org checksum : GoString) : Handler Response := do
  resolveOrg org
  refuseIf (files.md5 r.body ≠ checksum) 400 (lit "Checksum of uploaded content does not match " ++ checksum)
  Org.putBlob org checksum r.body
  return .json 200 (.malformed [])

def StructField.map (name : GoString) : StructField Object where
  name := name
  store
    | .object members, target => if membersInRange members then some (canonicalMembers target members) else none
    | .null, _ => some ∅
    | _, _ => none

def uploadEntry (files : FileEnv) (r : Request) (org sum : GoString) (has : Bool) : Value :=
  if has then .object [(lit "needs_upload", .bool false)]
  else .object [(lit "needs_upload", .bool true), (lit "url", .string (files.fileStoreURL r.baseURL org sum .put))]

def uploadEntries (files : FileEnv) (r : Request) (org : GoString) : List GoString → Handler Members
  | [] => return []
  | sum :: sums => do
      let has ← Org.hasBlob org sum
      return (sum, uploadEntry files r org sum has) :: (← uploadEntries files r org sums)

def createSandbox (files : FileEnv) (r : Request) (org : GoString) : Handler Response := do
  resolveOrg org
  match unmarshalStruct [StructField.map (lit "checksums")] ∅ r.body with
  | none => writeError 400 (lit "invalid JSON body")
  | some given =>
    let sums := sortStrings given.keys
    let id := files.sandboxID sums
    let entries ← uploadEntries files r org sums
    Org.put org sandboxesColl id (encodeMap [(lit "sandbox_id", .string id), (lit "checksums", stringArray sums),
      (lit "is_completed", .bool false), (lit "create_time", .string files.now)])
    return .json 201 (encodeMap [(lit "sandbox_id", .string id),
      (lit "uri", .string (r.baseURL ++ lit "/organizations/" ++ org ++ lit "/sandboxes/" ++ id)),
      (lit "checksums", .object entries)])

def requireBlobs (org : GoString) (message : GoString → GoString) : List GoString → Handler Unit
  | [] => pure ()
  | sum :: sums => do
      refuseIf (!(← Org.hasBlob org sum)) 400 (message sum)
      requireBlobs org message sums

def commitSandbox (org id : GoString) : Handler Response := do
  resolveOrg org
  match ← Org.get org sandboxesColl id with
  | none => writeError 404 (lit "Cannot find sandbox " ++ id)
  | some raw =>
    match unmarshalStruct [.strings (lit "checksums") (fun sums => sums) fun sums _ => sums] Slice.empty raw with
    | none => .stop .internalError
    | some sums =>
      requireBlobs org (fun sum => lit "Checksum " ++ sum ++
        lit " was not uploaded before the sandbox was committed") sums.elems
      let committed := encodeMap [(lit "guid", .string id), (lit "name", .string id),
        (lit "checksums", stringArray sums.elems), (lit "is_completed", .bool true)]
      Org.put org sandboxesColl id committed
      return .json 200 committed

def cookbookKey (name version : GoString) : GoString := name ++ lit "/" ++ version

def comparePart (a b : GoString) : Ordering :=
  if a = b then .eq
  else match parseInt a, parseInt b with
    | some m, some n => compare m n
    | _, _ => compare a b

def padParts (n : Nat) (parts : List GoString) : List GoString :=
  parts ++ List.replicate (n - parts.length) (lit "0")

def compareVersions (a b : GoString) : Ordering :=
  let as := a.splitOn 0x2E
  let bs := b.splitOn 0x2E
  let n := max as.length bs.length
  ((padParts n as).zip (padParts n bs)).foldr (fun parts rest => (comparePart parts.1 parts.2).then rest) .eq

def versionsOf (name : GoString) (keys : List GoString) : List GoString :=
  let versions := keys.filterMap fun key =>
    match cut (lit "/") key with
    | some (found, version) => if found = name then some version else none
    | none => none
  versions.insertionSort fun a b => compareVersions a b ≠ .lt

def resolveVersion (org name version : GoString) : Handler (Option GoString) := do
  if version ≠ lit "_latest" ∧ version ≠ lit "latest" then return some version
  return (versionsOf name (← Org.keys org cookbooksColl)).head?

def collectChecksums (org coll : GoString) : List GoString → Handler (List GoString)
  | [] => return []
  | key :: keys => do
      let sums := ((← Org.get org coll key).bind storedChecksums).getD []
      return sums ++ (← collectChecksums org coll keys)

def referencedChecksums (org : GoString) : Handler (List GoString) := do
  let ofCookbooks ← collectChecksums org cookbooksColl (← Org.keys org cookbooksColl)
  let ofArtifacts ← collectChecksums org artifactsColl (← Org.keys org artifactsColl)
  return ofCookbooks ++ ofArtifacts

def gcOrphanedBlobs (org : GoString) (candidates : List GoString) : Handler Unit := do
  if candidates = [] then pure ()
  else
    let referenced ← referencedChecksums org
    candidates.forM fun sum => if sum ∈ referenced then pure () else Org.deleteBlob org sum

def collectManifest (org : GoString) (raw : Raw) : Handler Unit :=
  match storedChecksums raw with
  | some sums => gcOrphanedBlobs org sums
  | none => pure ()

mutual

def addURLs (url : GoString → GoString) : Value → Value
  | .object members =>
    match get members (lit "checksum") with
    | some (.string sum) => .object (set (membersWithURLs url members) (lit "url") (.string (url sum)))
    | _ => .object (membersWithURLs url members)
  | .array elems => .array (elemsWithURLs url elems)
  | v => v

def elemsWithURLs (url : GoString → GoString) : List Value → List Value
  | [] => []
  | v :: rest => addURLs url v :: elemsWithURLs url rest

def membersWithURLs (url : GoString → GoString) : List (GoString × Value) → List (GoString × Value)
  | [] => []
  | (name, v) :: rest => (name, addURLs url v) :: membersWithURLs url rest

end

def withFileURLs (files : FileEnv) (r : Request) (org : GoString) (raw : Raw) : Raw :=
  match raw with
  | .document (.object obj) =>
    .document (addURLs (fun sum => files.fileStoreURL r.baseURL org sum .get) (.object (shapeManifest obj r.apiVersion)))
  | _ => raw

def deletedManifest (files : FileEnv) (r : Request) (org : GoString) (raw : Raw) : Raw :=
  if (storedChecksums raw).isSome then withFileURLs files r org raw else raw

def notUploaded (sum : GoString) : GoString :=
  lit "Manifest has a checksum that hasn't been uploaded: " ++ sum

def deleteVersionedACL (org coll name : GoString) : Handler Unit := do
  if ← hasVersion org coll name then pure () else deleteACL org coll name

def cookbookManifest (r : Request) (name version : GoString) : Handler Members := do
  refuseWith 400 (validateCookbookURL name version)
  let obj := withDefaults (← decodeManifestBody r)
  refuseWith 400 (validateCookbookManifest obj name version (r.apiVersion ≥ 2))
  return obj

def putCookbookVersion (files : FileEnv) (r : Request) (org name version : GoString) :
    Handler Response := do
  resolveOrg org
  let obj ← cookbookManifest r name version
  requireBlobs org notUploaded (manifestChecksums obj)
  let previous ← Org.get org cookbooksColl (cookbookKey name version)
  Org.put org cookbooksColl (cookbookKey name version) (storedObject obj)
  match previous with
  | none => return .json 201 (withFileURLs files r org (storedObject obj))
  | some raw =>
    -- after the manifest is stored, so that what it still lists is kept
    collectManifest org raw
    return .json 200 (withFileURLs files r org (storedObject obj))

def cannotFindCookbook {α : Type} (rest : GoString) : Handler α :=
  writeError 404 (lit "Cannot find a cookbook named " ++ rest)

def deleteCookbookVersion (files : FileEnv) (r : Request) (org name version : GoString) :
    Handler Response := do
  resolveOrg org
  match ← resolveVersion org name version with
  | none => cannotFindCookbook name
  | some version =>
    match ← Org.delete org cookbooksColl (cookbookKey name version) with
    | none => cannotFindCookbook (name ++ lit " version " ++ version)
    | some raw =>
      deleteVersionedACL org cookbooksColl name
      collectManifest org raw
      return .json 200 (deletedManifest files r org raw)

def artifactManifest (r : Request) : Handler Members := do
  let obj ← decodeManifestBody r
  refuseWith 400 (checkManifestShape r obj)
  return obj

def putArtifactVersion (files : FileEnv) (r : Request) (org name ident : GoString) :
    Handler Response := do
  resolveOrg org
  refuseIf (← Org.get org artifactsColl (cookbookKey name ident)).isSome 409
    (lit "Cookbook artifact " ++ name ++ lit " with identifier " ++ ident ++ lit " already exists")
  let obj ← artifactManifest r
  requireBlobs org notUploaded (manifestChecksums obj)
  Org.put org artifactsColl (cookbookKey name ident) (storedObject obj)
  return .json 201 (withFileURLs files r org (storedObject obj))

def deleteArtifactVersion (files : FileEnv) (r : Request) (org name ident : GoString) :
    Handler Response := do
  resolveOrg org
  match ← Org.delete org artifactsColl (cookbookKey name ident) with
  | none => writeError 404 (lit "Cannot find a cookbook artifact named " ++ name ++ lit " with identifier " ++ ident)
  | some raw =>
    deleteVersionedACL org artifactsColl name
    collectManifest org raw
    return .json 200 (deletedManifest files r org raw)

end CincServer.Api
