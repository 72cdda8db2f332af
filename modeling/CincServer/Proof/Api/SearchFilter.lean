import CincServer.Proof.Api.GroupRevocation

/-!
# The filter of search results against the check of single objects
-/

namespace CincServer.Proof.Api
open CincServer.Api CincServer.Json Proof.Decoding Go Lib Program

variable {org : GoString} {actor : Actor} {s : Store}
  {typ name id : GoString} {member : List GoString} {idx : SearchIndex}

def mayRead (enforceACL : Bool) (r : Request) (org : GoString) (idx : SearchIndex)
    (id : GoString) : Handler Bool :=
  match filteredActor enforceACL r with
  | none => pure true
  | some actor =>
    actorAllowed org actor idx.aclType (if idx.aclObject ≠ [] then idx.aclObject else id) (lit "read")

theorem run_filterEach {allowed : GoString → Handler Bool} {decision : GoString → Bool}
    (decides : ∀ id, (allowed id).run exec s = (.ok (decision id), s)) (found : List Match) :
    (filterEach allowed found).run exec s = (.ok (found.filter fun m => decision m.id), s) := by
  induction found with
  | nil => rfl
  | cons m rest ih =>
    rw [filterEach, run_bind_of_ok (decides m.id), run_bind_of_ok ih, run_pure, List.filter_cons]

theorem cutPrefix_eq_some {key object : GoString} :
    cutPrefix (typ ++ lit "/") key = some object ↔ key = aclKey typ object := by
  unfold cutPrefix aclKey
  constructor
  · intro cut
    split_ifs at cut with isPrefix
    obtain ⟨rest, rfl⟩ := List.isPrefixOf_iff_prefix.mp isPrefix
    obtain rfl := Option.some.inj cut
    simp
  · rintro rfl
    rw [if_pos (List.isPrefixOf_iff_prefix.mpr (List.prefix_append _ _)), List.drop_left]

theorem getElem?_keepDecision {stored : GoMap Bool} {row : GoString × Raw} :
    (keepDecision typ name member stored row)[id]? =
      if row.1 = aclKey typ id then (storedDecision name member row.2).or stored[id]? else stored[id]? := by
  unfold keepDecision
  cases cut : cutPrefix (typ ++ lit "/") row.1 with
  | none =>
    have other : row.1 ≠ aclKey typ id := fun same => by simp [cutPrefix_eq_some.mpr same] at cut
    simp [other]
  | some object =>
    rw [cutPrefix_eq_some] at cut
    have same : row.1 = aclKey typ id ↔ object = id := by simp [cut, aclKey]
    cases storedDecision name member row.2 <;> simp [same, Std.ExtTreeMap.getElem?_insert]

theorem getElem?_storedDecisions : (storedDecisions typ name member (s.range org aclsColl))[id]? =
      (s.get org aclsColl (aclKey typ id)).bind (storedDecision name member) := by
  refine (observe_foldl (fun stored : GoMap Bool => stored[id]?) (storedDecision name member)
    (fun _ _ => getElem?_keepDecision) nodup_range_fst (holds_range s org aclsColl (aclKey typ id)) ∅).trans ?_
  simp

/-! ## The two readings of a stored ACL -/

def aceSlice (name : GoString) (ace : AceDoc) : Slice :=
  if name = lit "actors" then ace.actors else ace.groups

def aceNames : List GoString := [lit "actors", lit "groups"]

theorem storeMember_ace (target : AceDoc) (member : GoString × Value) :
    storeMember aceFields target member =
      if foldName member.1 ∈ aceNames → isNames member.2 then
        some ⟨if foldName member.1 = lit "actors" then readNames target.actors member.2 else target.actors,
          if foldName member.1 = lit "groups" then readNames target.groups member.2 else target.groups⟩
      else none := by
  simp only [aceFields, storeMember_cons, storeMember_nil, strings_name, strings_store, aceNames,
    List.mem_cons, List.not_mem_nil, or_false]
  by_cases isActors : foldName member.1 = lit "actors"
  · simp +decide [isActors]
  by_cases isGroups : foldName member.1 = lit "groups"
  · simp +decide [isGroups]
  · simp [isActors, isGroups]

theorem listFields_ace : ListFields aceFields aceNames aceSlice := by
  refine .of_storeMember storeMember_ace fun target member name mem => ?_
  simp only [aceNames, List.mem_cons, List.not_mem_nil, or_false] at mem
  rcases mem with rfl | rfl <;> simp +decide [aceSlice]

/-- Every spelling of `read` is an object or `null`, and every spelling of a list in one is a list of
names. -/
def EntryTyped (doc : Members) : Prop :=
  (∀ v ∈ spellings (lit "read") doc, isEntry v) ∧
    ∀ member ∈ spelledMembers (lit "read") doc, foldName member.1 ∈ aceNames → isNames member.2

def named (actors groups : List GoString) (name : GoString) (member : List GoString) : Bool :=
  name ∈ actors || groups.any (· ∈ member)

/-- Whether the spellings of `read`, taken together, name the actor. -/
def namedSpelled (doc : Members) : GoString → List GoString → Bool :=
  named (spelledNames (lit "actors") (spelledMembers (lit "read") doc))
    (spelledNames (lit "groups") (spelledMembers (lit "read") doc))

/-- Whether the last member called `read` names the actor. -/
def namedExactly (doc : Members) : GoString → List GoString → Bool :=
  let entry := entryMembers ((lastNamed (lit "read") doc).getD .null)
  named (namesUnder (lit "actors") entry) (namesUnder (lit "groups") entry)

theorem allows_of_decodeReadACE {doc : Members} {ace : AceDoc}
    (decoded : decodeReadACE (.document (.object doc)) = some ace) :
    ace.allows = namedSpelled doc := by
  rw [decodeReadACE, unmarshalStruct, storeMembers_struct] at decoded
  obtain ⟨-, decoded⟩ := Option.ite_none_right_eq_some.mp decoded
  have actors := listFields_ace.slice_eq decoded (show lit "actors" ∈ aceNames by simp [aceNames])
  have groups := listFields_ace.slice_eq decoded (show lit "groups" ∈ aceNames by simp [aceNames])
  have actorsList : ace.actors = _ := actors
  have groupsList : ace.groups = _ := groups
  funext name member
  rw [AceDoc.allows, actorsList, groupsList]
  rfl

theorem isSome_decodeReadACE (doc : Members) :
    (decodeReadACE (.document (.object doc))).isSome ↔ EntryTyped doc := by
  rw [decodeReadACE, unmarshalStruct, storeMembers_struct, EntryTyped,
    ← listFields_ace.isSome_iff ⟨.empty, .empty⟩]
  by_cases entries : (spellings (lit "read") doc).all isEntry
  · simpa [entries] using fun _ => List.all_eq_true.mp entries
  · simpa [entries] using fun all => absurd (List.all_eq_true.mpr all) entries

theorem aceAllows_field (doc : Members) :
    aceAllows (field (canonicalMembers ∅ doc) (lit "read")) = namedExactly doc := by
  funext name member
  rw [aceAllows, asMap_field, namedExactly]
  cases lastNamed (lit "read") doc with
  | none => rfl
  | some v =>
    cases v <;> simp only [Option.bind_some, Option.getD_some, asMap, entryMembers, anyStrings,
      jsonStrings_field, named] <;> rfl

/-- What a stored ACL must say for both readings to give the actor of the name and groups the same
answer: where the struct holds it, the spellings of `read` name the actor exactly when the last member
of that very name does, or, with a number beyond float64, when the default does. -/
def EntryAlike (name : GoString) (member : List GoString) : Raw → Prop
  | .document (.object doc) => EntryTyped doc →
    namedSpelled doc name member =
      if membersInRange doc then namedExactly doc name member
      else aceAllows (field defaultACL (lit "read")) name member
  | _ => True

theorem storedDecision_eq_iff (ordinary : fallbackACL typ id = defaultACL) (raw : Raw) :
    (storedDecision name member raw).getD (aceAllows (field defaultACL (lit "read")) name member) =
        aceAllows (field (contents (aclOfRaw typ id (some raw)).acl) (lit "read")) name member ↔
      EntryAlike name member raw := by
  cases raw with
  | malformed => simp [storedDecision, decodeReadACE, unmarshalStruct, unmarshalMap, aclOfRaw, EntryAlike, ordinary, contents]
  | document v =>
    cases v with
    | object doc =>
      have typed := isSome_decodeReadACE doc
      rw [storedDecision, EntryAlike, ← typed, aclOfRaw, Option.bind_some, unmarshalMap]
      cases decoded : decodeReadACE (.document (.object doc)) with
      | some ace =>
        simp only [allows_of_decodeReadACE decoded]
        split_ifs <;> simp [aceAllows_field, contents, ordinary]
      | none => split_ifs <;> simp [contents, ordinary]
    | null => simp [storedDecision, decodeReadACE, unmarshalStruct, unmarshalMap, aclOfRaw, EntryAlike, contents,
        AceDoc.allows, Slice.empty, field, aceAllows, asMap]
    | _ => simp [storedDecision, decodeReadACE, unmarshalStruct, unmarshalMap, aclOfRaw, EntryAlike, ordinary, contents]

instance : DecidablePred EntryTyped := fun doc => by unfold EntryTyped; infer_instance

instance (name : GoString) (member : List GoString) : DecidablePred (EntryAlike name member) :=
  fun raw => by
  unfold EntryAlike
  split <;> infer_instance

def ReadersAgree (s : Store) (org typ : GoString) (actor : Actor) (id : GoString) : Prop :=
  ∀ raw ∈ s.get org aclsColl (aclKey typ id), EntryAlike actor.name (groupsAt s org actor) raw

instance (s : Store) (org typ : GoString) (actor : Actor) :
    DecidablePred (ReadersAgree s org typ actor) := fun id => by
  unfold ReadersAgree
  infer_instance

def bulkAllows (s : Store) (org typ : GoString) (actor : Actor) (id : GoString) : Bool :=
  ((s.get org aclsColl (aclKey typ id)).bind (storedDecision actor.name (groupsAt s org actor))).getD
    (aceAllows (field defaultACL (lit "read")) actor.name (groupsAt s org actor))

theorem bulkAllows_eq_iff (ordinary : fallbackACL typ id = defaultACL) :
    bulkAllows s org typ actor id =
      aceAllows (entryAt s org typ id (lit "read")) actor.name (groupsAt s org actor) ↔
      ReadersAgree s org typ actor id := by
  unfold bulkAllows ReadersAgree entryAt
  cases s.get org aclsColl (aclKey typ id) with
  | none => simp [aclOfRaw, ordinary, contents]
  | some raw => simpa using storedDecision_eq_iff ordinary raw

theorem run_searchReadFilter (each : idx.aclObject = []) :
    (searchReadFilter org actor idx).run exec s = (.ok (bulkAllows s org idx.aclType actor), s) := by
  have bulk : bulkAllows s org idx.aclType actor = fun id =>
      (storedDecisions idx.aclType actor.name (groupsAt s org actor) (s.range org aclsColl))[id]?.getD
        (aceAllows (field defaultACL (lit "read")) actor.name (groupsAt s org actor)) :=
    funext fun id => by rw [getElem?_storedDecisions, bulkAllows]
  rw [searchReadFilter, if_neg (not_not.mpr each), bulk]
  rfl

theorem fallbackACL_of_resolveIndex {t : Store}
    (resolved : (resolveIndex org name).run exec s = (.ok (some idx), t)) (id : GoString) :
    fallbackACL idx.aclType id = defaultACL := by
  unfold resolveIndex at resolved
  split_ifs at resolved with fixed
  · simp only [run_pure, Prod.mk.injEq, Except.ok.injEq, Option.some.injEq] at resolved
    obtain ⟨rfl, -⟩ := resolved
    simp only [List.mem_cons, List.not_mem_nil, or_false] at fixed
    rcases fixed with rfl | rfl | rfl | rfl <;> rfl
  · rw [run_get_bind] at resolved
    cases found : s.get org dataBagsColl name with
    | none => simp [found] at resolved
    | some raw =>
      simp only [found, run_pure, Prod.mk.injEq, Except.ok.injEq, Option.some.injEq] at resolved
      obtain ⟨rfl, -⟩ := resolved
      rfl

theorem filter_eq_filter_iff {α : Type} {p q : α → Bool} {found : List α} :
    found.filter p = found.filter q ↔ ∀ m ∈ found, p m = q m := by
  refine ⟨fun same m mem => ?_, List.filter_congr⟩
  have kept : m ∈ found.filter p ↔ m ∈ found.filter q := by rw [same]
  simp only [List.mem_filter, mem, true_and] at kept
  exact Bool.eq_iff_iff.mpr kept

/-- The filter of a search keeps exactly the matches that per-object authorization lets through
when, for a list long enough to be decided in bulk, both readings of every match's ACL agree. -/
theorem filterReadable_eq_iff {enforceACL : Bool} {r : Request} {name : GoString}
    {idx : SearchIndex}
    {found : List Match} (resolved : (resolveIndex org name).run exec s = (.ok (some idx), s)) :
    (filterReadable enforceACL r org idx found).run exec s =
        (filterEach (mayRead enforceACL r org idx) found).run exec s ↔
      ∀ actor, filteredActor enforceACL r = some actor → idx.aclObject = [] →
        bulkThreshold < found.length → ∀ m ∈ found, ReadersAgree s org idx.aclType actor m.id := by
  unfold filterReadable mayRead
  cases checked : filteredActor enforceACL r with
  | none =>
    have all : (filterEach (fun _ => pure true) found).run exec s = (.ok (found.filter fun _ => true), s) :=
      run_filterEach (fun _ => run_pure _) found
    simp [all]
  | some actor =>
    rw [run_filterEach fun id => run_actorAllowed _ _ _]
    by_cases nothing : found = []
    · simp [nothing]
    by_cases each : idx.aclObject = []
    · by_cases short : found.length ≤ bulkThreshold
      · simp [nothing, each, short, run_filterEach fun id => run_actorAllowed _ _ _]
      · have agree (id : GoString) : _ ↔ ReadersAgree s org idx.aclType actor id :=
          bulkAllows_eq_iff (fallbackACL_of_resolveIndex resolved id)
        simp only [List.isEmpty_iff, nothing, each, short, if_false, ne_eq, not_true,
          run_bind_of_ok (run_searchReadFilter each), run_pure, Prod.mk.injEq, Except.ok.injEq, and_true,
          filter_eq_filter_iff, agree, Option.some.injEq, forall_eq', true_imp_iff, not_le.mp short]
    · by_cases allowed : aceAllows (entryAt s org idx.aclType idx.aclObject (lit "read")) actor.name
          (groupsAt s org actor)
      all_goals simp [nothing, each, run_bind_of_ok (run_actorAllowed _ _ _), allowed]

section Fleet

def nodeName (i : Nat) : GoString :=
  lit "web" ++ [UInt8.ofNat (0x30 + i / 10), UInt8.ofNat (0x30 + i % 10)]

def nodeDoc (i : Nat) : Raw := .document (.object [(lit "name", .string (nodeName i))])

def fleet : List Match := (List.range 65).map fun i => ⟨nodeName i, nodeDoc i⟩

def fleetStore : Store :=
  fleet.foldl (fun s m => s.put (lit "acme") (lit "nodes") m.id m.raw)
    (Store.newMemoryBackend.put (lit "acme") groupsColl (lit "admins") (groupJSON (lit "admins") [] .none))

def nodeIndex : SearchIndex := ⟨lit "nodes", true, lit "nodes", []⟩

def asks (name : GoString) (body : Members) : Request where
  actor := some ⟨name, false, false, false⟩
  apiVersion := 1
  body := .document (.object body)
  baseURL := lit "https://chef.example.com"

/-- The fleet with an ACL of its own for one of its nodes. -/
def sharedStore : Store :=
  fleetStore.put (lit "acme") aclsColl (aclKey (lit "nodes") (nodeName 0)) <| .document <| .object
    [(lit "read", .object [(lit "actors", stringArray [lit "mallory"]), (lit "groups", stringArray [lit "admins"])])]

theorem filterReadable_eq_iff_fleet :
    (filterReadable true (asks (lit "mallory") []) (lit "acme") nodeIndex fleet).run exec sharedStore =
      (filterEach (mayRead true (asks (lit "mallory") []) (lit "acme") nodeIndex) fleet).run exec sharedStore := by
  have resolved : (resolveIndex (lit "acme") (lit "node")).run exec sharedStore =
    (.ok (some nodeIndex), sharedStore) := rfl
  refine (filterReadable_eq_iff resolved).mpr fun actor isActor _ _ => ?_
  obtain rfl : ⟨lit "mallory", false, false, false⟩ = actor := Option.some.inj isActor
  decide +kernel

def misspelled : Members :=
  [(lit "groups", stringArray [lit "admins"]), (lit "Actors", stringArray [lit "mallory"])]

def misspell : Handler Response :=
  putACLPerm (asks (lit "alice") misspelled) (lit "acme") (lit "nodes") (nodeName 0) (lit "read")

theorem filterReadable_keeps_unreadable :
    ∃ response t, misspell.run exec fleetStore = (.ok response, t) ∧
      (filterReadable true (asks (lit "mallory") []) (lit "acme") nodeIndex fleet).run exec t ≠
        (filterEach (mayRead true (asks (lit "mallory") []) (lit "acme") nodeIndex) fleet).run exec t := by
  have succeeds : (misspell.run exec fleetStore).1.isOk := by decide +kernel
  obtain ⟨response, ran⟩ := run_of_isOk succeeds
  refine ⟨response, _, ran, fun same => ?_⟩
  have ids := congrArg (fun result => result.1.toOption.map fun found => found.map Match.id) same
  revert ids
  decide +kernel

end Fleet

end CincServer.Proof.Api
