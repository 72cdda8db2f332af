import CincServer.Lib.Cascade
import CincServer.Proof.Api.Sessions
import CincServer.Proof.Json.Normalize

/-!
# Data bags, their items and the constraints of an environment
-/

namespace CincServer.Proof.Api
open CincServer.Api CincServer.Json Go Lib Program
open BagRequest (handler)

variable {α : Type} {org bag : GoString} {s : Store} {fails : StoreCall → Bool}

def writesItem (org bag : GoString) : StoreCall → Bool := writesTo org (dataBagItemsColl bag)

/-- No error is reported when the items of the bag are listed and deleted. -/
def SweepsFully (org : GoString) : BagRequest → Prop
  | .delete bag fails =>
    fails (.keys org (dataBagItemsColl bag)) = false ∧ ∀ id, fails (.delete org (dataBagItemsColl bag) id) = false
  | _ => True

abbrev BagJournal := Journal BagRequest StoreCall.Result Response Response Store

/-- Items are written only while their bag is there. -/
def WrittenBesideBag (org : GoString) :
    Allows BagRequest StoreCall.Result Response Response Store := fun label c s _ =>
  writesItem org label.bag c → (s.get org dataBagsColl label.bag).isSome

instance (org : GoString) (label : BagRequest) (c : StoreCall) (s : Store)
    (others : List (Entry BagRequest StoreCall.Result Response Response)) :
    Decidable (WrittenBesideBag org label c s others) := inferInstanceAs (Decidable (_ → _))

theorem withErrors_bind {β : Type} (h : Handler α) (f : α → Handler β) :
    withErrors fails (h >>= f) = withErrors fails h >>= fun a => withErrors fails (f a) := by
  induction h with
  | ret | stop => rfl
  | call c next ih =>
    have unfolded : withErrors fails (call c next >>= f) =
      if fails c then .stop .internalError else .call c fun answer =>
        withErrors fails (next answer >>= f) := rfl
    rw [unfolded, withErrors]
    split
    · rfl
    · simp only [ih]
      rfl

theorem only_withErrors {allowed : StoreCall → Prop} {h : Handler α} (only : h.Only allowed) :
    (withErrors fails h).Only allowed := by
  induction h with
  | ret | stop => trivial
  | call c next ih =>
    rw [withErrors]
    split
    · trivial
    · exact ⟨only.1, fun answer => ih answer (only.2 answer)⟩

theorem withErrors_delete {coll key : GoString} : withErrors fails (Org.delete org coll key) =
      if fails (.delete org coll key) then .stop .internalError else Org.delete org coll key := rfl

theorem withErrors_keys {coll : GoString} : withErrors fails (Org.keys org coll) =
      if fails (.keys org coll) then .stop .internalError else Org.keys org coll := rfl

def hasBag (org bag : GoString) (s : Store) : Bool := (s.get org dataBagsColl bag).isSome

def hasItem (org bag : GoString) (s : Store) (id : GoString) : Bool :=
  (s.get org (dataBagItemsColl bag) id).isSome

def addsItem (org bag : GoString) (label : BagRequest) (c : StoreCall) : Bool :=
  label.bag = bag && writesItem org bag c

variable {label : BagRequest}

abbrev SparesBag (org bag : GoString) (label : BagRequest) : StoreCall → Prop :=
  Retains exec (hasBag org bag) (hasItem org bag) (addsItem org bag label)

theorem dataBagsColl_ne : dataBagsColl ≠ dataBagItemsColl bag :=
  ne_of_colon (by decide) (colon_mem_dataBagItemsColl bag)

theorem sparesBag_of_within {f : Footprint} {c : StoreCall} (keeps : dataBagsColl ∉ f.deletes)
    (own : dataBagItemsColl bag ∈ f.puts → label.bag = bag)
    (within : Within org f c) : SparesBag org bag label c := by
  refine ⟨?_, fun s there => (within.frame s).grows keeps there⟩
  cases writes : writesItem org bag c with
  | false => exact .inr fun s id left => isSome_of_exec writes left
  | true =>
    have put : dataBagItemsColl bag ∈ f.puts := by
      cases c with
      | put | create =>
        simp only [writesItem, writesTo, Bool.and_eq_true, decide_eq_true_eq] at writes
        exact writes.2 ▸ within.2
      | _ => cases writes
    exact .inl (by simp [addsItem, own put, writes])

theorem sparesBag_of_untouched {c : StoreCall} (bagStays : touches org dataBagsColl bag c = false)
    (itemsStay : ∀ id, touches org (dataBagItemsColl bag) id c = false) :
    SparesBag org bag label c := by
  refine ⟨.inr fun s id left => ?_, fun s there => ?_⟩
  · have same := get_exec (itemsStay id) s
    rwa [hasItem, same] at left
  · have same := get_exec bagStays s
    rwa [hasBag, same]

theorem reads_sparesBag : Reads (SparesBag org bag label) := by
  constructor <;> intros <;> exact sparesBag_of_untouched rfl fun _ => rfl

theorem spares_deleteDataBag {other : GoString} (differs : other ≠ bag) :
    (deleteDataBag org other).Only (SparesBag org bag label) := by
  have deletes {coll key : GoString} (row : coll = dataBagsColl → key ≠ bag) (items : coll ≠ dataBagItemsColl bag) :
      (Org.delete org coll key).Only (SparesBag org bag label) :=
    only_delete (sparesBag_of_untouched (by simpa [touches] using row) fun _ => by simp [touches, items])
  have others : dataBagItemsColl other ≠
      dataBagItemsColl bag := by simpa [dataBagItemsColl] using differs
  have bagless : aclsColl ≠ dataBagItemsColl bag :=
    ne_of_colon (by decide) (colon_mem_dataBagItemsColl bag)
  refine reads_sparesBag.only_resolveOrg.bind fun _ =>
    (deletes (fun _ => differs) dataBagsColl_ne).bind (only_option (only_stop _) fun _ => ?_)
  refine reads_sparesBag.only_keys.bind fun ids => ?_
  have sweeps : (deleteAll org (dataBagItemsColl other) ids).Only (SparesBag org bag label) :=
    only_forM (fun _ => (deletes (fun same => absurd same.symm dataBagsColl_ne) others).bind fun _ => only_pure _) ids
  exact sweeps.bind fun _ =>
    ((deletes (fun same => absurd same (by decide)) bagless).bind fun _ => only_pure _).bind
    fun _ => only_pure _

theorem owes_deleteAll (fine : ∀ id, fails (.delete org (dataBagItemsColl bag) id) = false)
    {ids : List GoString}
    {id : GoString} (listed : id ∈ ids) (f : Unit → Handler Response) :
    (withErrors fails (deleteAll org (dataBagItemsColl bag) ids) >>= f).Owes exec (hasItem org bag) id := by
  induction ids with
  | nil => cases listed
  | cons first ids ih =>
    have unfolded : withErrors fails (deleteAll org (dataBagItemsColl bag) (first :: ids)) >>= f =
        (perform (.delete org (dataBagItemsColl bag) first) >>= fun _ =>
          withErrors fails (deleteAll org (dataBagItemsColl bag) ids) >>= f : Handler Response) := by
      have more : deleteAll org (dataBagItemsColl bag) (first :: ids) =
        ((Org.delete org (dataBagItemsColl bag) first >>= fun _ => pure ()) >>= fun _ =>
          deleteAll org (dataBagItemsColl bag) ids) := rfl
      rw [more, withErrors_bind, withErrors_bind, withErrors_delete, if_neg (by simp [fine first])]
      rfl
    rw [unfolded]
    intro s was left
    rcases List.mem_cons.mp listed with rfl | listed
    · simp [hasItem, exec, get_delete] at left
    · exact ih listed

def sweepBag (org bag : GoString) (raw : Raw) : Handler Response := do
  deleteAll org (dataBagItemsColl bag) (← Org.keys org (dataBagItemsColl bag))
  deleteACL org (lit "data") bag
  return .json 200 (deletedBag raw)

theorem owes_sweepBag (fine : SweepsFully org (.delete bag fails)) (raw : Raw) (id : GoString) :
    (withErrors fails (sweepBag org bag raw)).Owes exec (hasItem org bag) id := by
  rw [sweepBag, withErrors_bind, withErrors_keys, if_neg (by simp [fine.1])]
  intro s was _
  have listed : id ∈ s.keys org (dataBagItemsColl bag) := mem_keys.mpr was
  have owes := owes_deleteAll fine.2 listed fun _ => withErrors fails do
    deleteACL org (lit "data") bag
    return .json 200 (deletedBag raw)
  rwa [← withErrors_bind] at owes

theorem spares_sweepBag (raw : Raw) : (sweepBag org bag raw).Only (SparesBag org bag label) := by
  have within : (sweepBag org bag raw).Only (Within org ⟨[], [dataBagItemsColl bag, aclsColl]⟩) :=
    within_reads.only_keys.bind fun _ => (within_deleteAll (by simp) _).bind fun _ =>
      (within_deleteACL (by simp)).bind fun _ => only_pure _
  have keeps : dataBagsColl ∉ [dataBagItemsColl bag, aclsColl] := by
    have apart : dataBagsColl ≠ aclsColl := by decide
    simp [dataBagsColl_ne, apart]
  exact within.mono fun _ => sparesBag_of_within keeps (by simp)

theorem cascades_deleteDataBag (fine : SweepsFully org (.delete bag fails)) :
    (withErrors fails (deleteDataBag org bag)).Cascades exec (hasBag org bag) (hasItem org bag)
      (addsItem org bag (.delete bag fails)) := by
  rw [deleteDataBag, withErrors_bind]
  refine (only_withErrors reads_sparesBag.only_resolveOrg).cascading fun _ => ?_
  rw [withErrors_bind, withErrors_delete]
  split
  · trivial
  · have deleted (s : Store) :
        (exec (.delete org dataBagsColl bag) s).1 = s.get org dataBagsColl bag := delete_snd ..
    refine cascades_remove (.inr fun s id left => isSome_of_exec rfl left)
      (fun s there => ?_) fun s => ?_
    · obtain ⟨raw, found⟩ := Option.isSome_iff_exists.mp there
      rw [deleted, found]
      exact owes_sweepBag fine raw
    · rw [deleted]
      cases s.get org dataBagsColl bag with
      | none => trivial
      | some raw => exact Only.cascades (only_withErrors (spares_sweepBag raw))

theorem cascades_bagRequest (label : BagRequest) (fine : SweepsFully org label) :
    (label.handler org).Cascades exec (hasBag org bag) (hasItem org bag)
    (addsItem org bag label) := by
  have writes (request : ObjectWrite) (footprint : objectWrites request = ⟨[dataBagItemsColl label.bag], []⟩) :
      (request.handler true org).Cascades exec (hasBag org bag) (hasItem org bag) (addsItem org bag label) := by
    have within := @within_object true org request
    rw [footprint] at within
    have own (mem : dataBagItemsColl bag ∈ [dataBagItemsColl label.bag]) : label.bag = bag := by
      simpa [dataBagItemsColl, eq_comm] using mem
    exact Only.cascades (within.mono fun _ => sparesBag_of_within List.not_mem_nil own)
  cases label with
  | createItem r name => exact writes (.createItem r name) rfl
  | putItem r name id => exact writes (.putItem r name id) rfl
  | delete name fails =>
    by_cases same : name = bag
    · subst same
      exact cascades_deleteDataBag fine
    · exact Only.cascades (only_withErrors (spares_deleteDataBag same))

/-- When items are written beside their bag and the deletions meet no error with the items, there is no
item without its bag once the requests have ended. -/
theorem items_keep_bag {j : BagJournal}
    (start : ∀ bag id, (s.get org (dataBagItemsColl bag) id).isSome → (s.get org dataBagsColl bag).isSome)
    (reached : Journal.Reaches exec (handler org) (WrittenBesideBag org) (.initial s) j)
    (fine : ∀ entry ∈ j.entries, SweepsFully org entry.label)
    (ended : ∀ entry ∈ j.entries, entry.rest.ended) :
    ∀ bag id, (j.state.get org (dataBagItemsColl bag) id).isSome →
      (j.state.get org dataBagsColl bag).isSome := by
  intro bag
  have besides : Journal.Reaches exec (handler org) (Journal.owned (hasBag org bag) (addsItem org bag))
      (.initial s) j := by
    refine reached.mono fun {label c s others} allowed adds => ?_
    obtain ⟨same, writes⟩ : label.bag = bag ∧ writesItem org bag c := by simpa [addsItem] using adds
    subst same
    exact allowed writes
  exact besides.owned cascades_bagRequest (start bag) fine ended

def secrets : GoString := lit "secrets"

def oneBag : Store :=
  (Store.newMemoryBackend.createOrg acme).1.put acme dataBagsColl secrets (encodeMap [(lit "name", .string secrets)])

def addsToken : BagRequest := .createItem (creates [(lit "id", .string (lit "token"))]) secrets

def deletesBag (fails : StoreCall → Bool) : BagRequest := .delete secrets fails

def listingFails : StoreCall → Bool
  | .keys .. => true
  | _ => false

theorem items_of_oneBag (bag id : GoString)
    (stored : (oneBag.get acme (dataBagItemsColl bag) id).isSome) :
    (oneBag.get acme dataBagsColl bag).isSome := by
  rw [oneBag, get_put_of_ne dataBagsColl_ne, Proof.Store.get_createOrg] at stored
  cases stored

theorem item_swept_with_bag :
    ∃ j : BagJournal, Journal.moves exec (handler acme) (WrittenBesideBag acme) (.initial oneBag)
        [.start addsToken, .go 0, .start (deletesBag fun _ => false), .go 1, .go 0, .go 0, .go 0, .go 0] = some j ∧
      ∀ bag id, (j.state.get acme (dataBagItemsColl bag) id).isSome →
        (j.state.get acme dataBagsColl bag).isSome := by
  have closed : (Journal.moves exec (handler acme) (WrittenBesideBag acme) (.initial oneBag)
        [.start addsToken, .go 0, .start (deletesBag fun _ => false), .go 1, .go 0, .go 0, .go 0, .go 0]).map (fun j =>
      decide (∀ entry ∈ j.entries, entry.rest.ended)) = some true := by decide +kernel
  obtain ⟨j, made, checked⟩ := Option.map_eq_some_iff.mp closed
  have labels : (Journal.moves exec (handler acme) (WrittenBesideBag acme) (.initial oneBag)
        [.start addsToken, .go 0, .start (deletesBag fun _ => false), .go 1, .go 0, .go 0, .go 0, .go 0]).map (fun j =>
      j.entries.map Entry.label) = some [deletesBag fun _ => false, addsToken] := rfl
  rw [made, Option.map_some, Option.some.injEq] at labels
  have fine : ∀ entry ∈ j.entries, SweepsFully acme entry.label := by
    intro entry mem
    have known : entry.label ∈ [deletesBag fun _ => false, addsToken] :=
      labels ▸ List.mem_map_of_mem mem
    rcases List.mem_pair.mp known with same | same
    · rw [same]
      exact ⟨rfl, fun _ => rfl⟩
    · rw [same]
      trivial
  exact ⟨j, made, items_keep_bag items_of_oneBag (Journal.reaches_of_moves made) fine
    (of_decide_eq_true checked)⟩

theorem item_left_without_bag :
    (∃ j : BagJournal, Journal.Reaches exec (handler acme) Journal.anyOrder (.initial oneBag) j ∧
      (∀ entry ∈ j.entries, entry.rest.returned) ∧
      (j.state.get acme (dataBagItemsColl secrets) (lit "token")).isSome ∧ (j.state.get acme dataBagsColl secrets).isNone) ∧
    ∃ j : BagJournal, Journal.Reaches exec (handler acme) (WrittenBesideBag acme) (.initial oneBag) j ∧
      (∀ entry ∈ j.entries, entry.rest.ended) ∧
      (j.state.get acme (dataBagItemsColl secrets) (lit "token")).isSome ∧ (j.state.get acme dataBagsColl secrets).isNone := by
  constructor
  · exact Journal.exists_of_moves
      [.start addsToken, .go 0, .start (deletesBag fun _ => false), .go 0, .go 0, .go 0, .go 1] (by decide +kernel)
  · exact Journal.exists_of_moves
      [.start addsToken, .go 0, .go 0, .start (deletesBag listingFails), .go 0] (by decide +kernel)

/-! ## The constraints of an environment -/

open Proof.Decoding

variable {s t : Store} {org env urlName cookbook : GoString} {members versions : Members} {r : Request} {v : Value}

def firstConstraint (members : Members) (cookbook : GoString) : Option Value :=
  (get members cookbookVersions).bind fun v => match v with
    | .object versions => get versions cookbook
    | _ => none

theorem validConstraint_eq (valid : validConstraint v) :
    ∃ c, v = .string c ∧ validCookbookConstraint c := by
  cases v with
  | string c => exact ⟨c, rfl, valid⟩
  | _ => cases valid

theorem checkMembers_none {check : GoString → Value → Option GoString} {name : GoString}
    (passes : checkMembers members check = none) (found : get members name = some v) :
    check name v = none := by
  have listed : name ∈ sortedNames members := by
    refine (perm_sortStrings _).mem_iff.mpr ?_
    obtain ⟨before, after, rfl, -⟩ := List.lookup_eq_some_iff.mp found
    simp
  have checked := List.findSome?_eq_none_iff.mp passes name listed
  rwa [found] at checked

theorem versions_of_accepted (accepted : validateEnvironment members = none)
    (found : get members cookbookVersions = some v) :
    ∃ versions, v = .object versions ∧ ∀ cookbook c, get versions cookbook = some c →
      ∃ text, c = .string text ∧ validCookbookConstraint text := by
  simp only [validateEnvironment, Option.orElse_eq_none] at accepted
  have passes := accepted.2
  rw [cookbookVersionsError, show lit "cookbook_versions" = cookbookVersions from rfl,
    found] at passes
  cases v with
  | object versions =>
    refine ⟨versions, rfl, fun cookbook c listed => validConstraint_eq ?_⟩
    have checked := checkMembers_none passes listed
    split_ifs at checked with _ valid
    exact valid
  | _ => cases passes

def isConstraints : Value → Bool
  | .object versions => versions.all fun member => isName member.2
  | .null => true
  | _ => false

/-- A `null` empties the map, and one in an object is the empty constraint. -/
def readConstraints (entries : GoMap GoString) : Value → GoMap GoString
  | .object versions => versions.foldl (fun entries member => entries.insert member.1 (str member.2)) entries
  | _ => ∅

theorem storeStrings_eq (versions : Members) (entries : GoMap GoString) :
    storeStrings versions entries =
      if isConstraints (.object versions) then some (readConstraints entries (.object versions)) else none := by
  induction versions generalizing entries with
  | nil => rfl
  | cons member rest ih =>
    obtain ⟨name, v⟩ := member
    cases v with
    | string text => exact ih _
    | null => exact ih _
    | _ => simp [storeStrings, isConstraints, isName]

theorem storeMembers_env (doc : Members) (entries : GoMap GoString) :
    storeMembers envFields doc entries =
      if (spellings cookbookVersions doc).all isConstraints then
        some ((spellings cookbookVersions doc).foldl readConstraints entries)
      else none := by
  induction doc generalizing entries with
  | nil => rfl
  | cons member doc ih =>
    have one : storeMember envFields entries member =
        if foldName member.1 = cookbookVersions then
          if isConstraints member.2 then some (readConstraints entries member.2) else none
        else some entries := by
      obtain ⟨name, v⟩ := member
      cases v <;> simp [envFields, stringMap, storeStrings_eq, isConstraints, readConstraints]
    rw [storeMembers, one, spellings_cons]
    by_cases spelled : foldName member.1 = cookbookVersions
    · by_cases typed : isConstraints member.2
      · simpa [spelled, typed] using ih (readConstraints entries member.2)
      · simp [spelled, typed]
    · simpa [spelled] using ih entries

/-- What a spelling of `cookbook_versions` makes of the constraint found so far. -/
def constraintAfter (cookbook : GoString) (found : Option GoString) : Value → Option GoString
  | .object versions => ((get versions cookbook).map str).or found
  | _ => none

/-- What the spellings of `cookbook_versions` give the cookbook together, in their order: the last object
that lists it, unless a `null` follows. -/
def spelledConstraint (members : Members) (cookbook : GoString) : Option GoString :=
  (spellings cookbookVersions (firstOf [] members)).foldl (constraintAfter cookbook) none

theorem getElem?_stored {entries : GoMap GoString} (distinct : (versions.map Prod.fst).Nodup)
    (cookbook : GoString) :
    (versions.foldl (fun (entries : GoMap GoString) member => entries.insert member.1 (str member.2)) entries)[cookbook]? =
      ((get versions cookbook).map str).or entries[cookbook]? := by
  have one (entries : GoMap GoString) (member : GoString × Value) : (entries.insert member.1 (str member.2))[cookbook]? =
      if member.1 = cookbook then (some (str member.2)).or entries[cookbook]? else entries[cookbook]? := by
    simp only [Std.ExtTreeMap.getElem?_insert, Std.compare_eq_iff_eq, Option.some_or]
  refine (observe_foldl (fun entries : GoMap GoString => entries[cookbook]?)
    (fun v => some (str v)) one distinct
    (Proof.Json.holds_get distinct cookbook) entries).trans ?_
  cases get versions cookbook <;> simp

theorem mem_spellings_firstOf (mem : v ∈ spellings cookbookVersions (firstOf [] members)) :
    ∃ old, v = firstMembers old := by
  obtain ⟨member, listed, rfl⟩ := List.mem_map.mp mem
  have found := (Proof.Json.holds_get (Proof.Json.nodup_firstOf [] members) member.1 member.2).mp (List.mem_filter.mp listed).1
  rw [Proof.Json.get_firstOf (by simp) members] at found
  obtain ⟨old, -, same⟩ := Option.map_eq_some_iff.mp found
  exact ⟨old, same.symm⟩

theorem getElem?_spelled (members : Members) (cookbook : GoString) :
    ((spellings cookbookVersions (firstOf [] members)).foldl readConstraints ∅)[cookbook]? =
      spelledConstraint members cookbook := by
  have run (values : List Value) (first : ∀ v ∈ values, ∃ old, v = firstMembers old) (entries : GoMap GoString) :
      (values.foldl readConstraints entries)[cookbook]? = values.foldl (constraintAfter cookbook) entries[cookbook]? := by
    induction values generalizing entries with
    | nil => rfl
    | cons v rest ih =>
      obtain ⟨⟨old, rfl⟩, others⟩ := List.forall_mem_cons.mp first
      rw [List.foldl_cons, List.foldl_cons, ih others]
      congr 1
      cases old with
      | object versions =>
        simp only [firstMembers]
        exact getElem?_stored (Proof.Json.nodup_firstOf [] versions) cookbook
      | _ => simp [firstMembers, readConstraints, constraintAfter]
  simpa [spelledConstraint] using run _ (fun _ => mem_spellings_firstOf) ∅

/-- The spellings of `cookbook_versions` can be read, and give each cookbook together what the first
member of that very name gives it. -/
structure AppliesFirst (members : Members) : Prop where
  typed : ∀ v ∈ spellings cookbookVersions (firstOf [] members), isConstraints v
  same : ∀ cookbook, (spelledConstraint members cookbook).map Value.string = firstConstraint members cookbook

theorem unmarshalFirst_object (members : Members) :
    unmarshalFirst envFields ∅ (storedObject members) =
      storeMembers envFields (firstOf [] members) ∅ := by
  have first : (if hasRepeatedNames (.object members) then firstMembers (.object members) else .object members) =
      firstMembers (.object members) := by
    split_ifs with repeated
    · rfl
    · exact ((Proof.Json.firstMembers_eq_self _).mpr (Bool.eq_false_iff.mpr repeated)).symm
  rw [storedObject, unmarshalFirst, first, firstMembers, unmarshalStruct]

theorem firstMembers_eq_string {text : GoString} (same : firstMembers v = .string text) :
    v = .string text := by
  cases v <;> simp [firstMembers] at same ⊢
  exact same

theorem firstMembers_eq_object {inner : Members} (same : firstMembers v = .object inner) :
    ∃ versions, v = .object versions ∧ inner = firstOf [] versions := by
  cases v <;> simp [firstMembers] at same ⊢
  exact same.symm

theorem unmarshalFirst_env (members : Members) : unmarshalFirst envFields ∅ (storedObject members) =
      if (spellings cookbookVersions (firstOf [] members)).all isConstraints then
        some ((spellings cookbookVersions (firstOf [] members)).foldl readConstraints ∅)
      else none := by
  rw [unmarshalFirst_object, storeMembers_env]

theorem firstConstraint_valid (accepted : validateEnvironment (firstOf [] members) = none)
    (found : firstConstraint members cookbook = some v) :
    ∃ text, v = .string text ∧ validCookbookConstraint text := by
  obtain ⟨outer, named, listed⟩ := Option.bind_eq_some_iff.mp found
  have first : get (firstOf [] members) cookbookVersions = some (firstMembers outer) := by
    rw [Proof.Json.get_firstOf (by simp) members, named, Option.map_some]
  obtain ⟨inner, object, strings⟩ := versions_of_accepted accepted first
  obtain ⟨versions, rfl, rfl⟩ := firstMembers_eq_object object
  have value : get (firstOf [] versions) cookbook = some (firstMembers v) := by
    rw [Proof.Json.get_firstOf (by simp) versions, show get versions cookbook = some v from listed,
      Option.map_some]
  obtain ⟨text, same, valid⟩ := strings cookbook (firstMembers v) value
  exact ⟨text, firstMembers_eq_string same, valid⟩

/-- The constraints of an accepted environment that reach the solver are the ones that were validated
exactly when every spelling of `cookbook_versions` together says what the first member of that name does. -/
theorem validated_constraint_applied_iff
    (stored : s.get org (ObjectType.segment .environments) env = some (storedObject members))
    (accepted : validateObjectBody .environments urlName members = none) :
    (∃ constraints, (envConstraints org env).run exec s = (.ok (some constraints), s) ∧ ∀ cookbook,
      constraints[cookbook]?.map Value.string = firstConstraint members cookbook ∧
        ∀ c, constraints[cookbook]? = some c → validCookbookConstraint c) ↔ AppliesFirst members := by
  rw [envConstraints, run_get_bind, stored]
  simp only [unmarshalFirst_env]
  by_cases typed : (spellings cookbookVersions (firstOf [] members)).all isConstraints
  · simp only [typed, if_true, run_pure, Prod.mk.injEq, Except.ok.injEq, Option.some.injEq,
      and_true, exists_eq_left', getElem?_spelled]
    constructor
    · exact fun agree => ⟨List.all_eq_true.mp typed, fun cookbook => (agree cookbook).1⟩
    · refine fun applies cookbook => ⟨applies.same cookbook, fun c found => ?_⟩
      have first := applies.same cookbook
      rw [found] at first
      obtain ⟨text, same, valid⟩ := firstConstraint_valid accepted first.symm
      cases same
      exact valid
  · simp only [typed, Bool.false_eq_true, if_false]
    refine iff_of_false ?_ fun applies => typed (List.all_eq_true.mpr applies.typed)
    rintro ⟨constraints, ran, -⟩
    cases ran

/-- What `POST environments` stores was accepted. -/
theorem createObject_accepted (enforceACL : Bool) (r : Request) (org : GoString) (s : Store) :
    Leads exec (fun _ => True) (createObject enforceACL r org .environments) s fun _ t =>
      ∃ env members,
      validateObjectBody .environments [] members = none ∧
        t.get org (ObjectType.segment .environments) env = some (storedObject members) := by
  refine (leads_resolveOrg trivial).past fun _ _ => ?_
  refine (leads_reads only_readObjectBody trivial).still fun members => ?_
  refine (leads_refuseWith trivial).past fun _ accepted => ?_
  refine (leads_refuseIf trivial).past fun _ _ => ?_
  refine (leads_create trivial).then ?_
  rintro _ _ ⟨-, rfl⟩
  have grants : (grantCreator enforceACL r org (ObjectType.segment .environments) (stringMember members (lit "name"))).Only
      (Within org ⟨[aclsColl], []⟩) := within_grantCreator (by simp)
  refine (leads_within grants fun _ _ => trivial).then fun _ t frame =>
    leads_pure ⟨stringMember members (lit "name"), members, accepted, ?_⟩
  rw [frame.gets (by decide) (by decide), get_put, if_pos ⟨rfl, rfl, rfl⟩]
  rfl

/-- What `PUT environments` stores was accepted. -/
theorem putObject_accepted (r : Request) (org env : GoString) (s : Store) :
    Leads exec (fun _ => True) (putObject r org .environments env) s fun _ t => ∃ members,
      validateObjectBody .environments env members = none ∧
        t.get org (ObjectType.segment .environments) env = some (storedObject members) := by
  refine (leads_resolveOrg trivial).past fun _ _ => ?_
  refine (leads_reads readOnly_reads.only_mustView trivial).still fun _ => ?_
  refine (leads_reads only_readObjectBody trivial).still fun members => ?_
  refine (leads_refuseWith trivial).past fun _ accepted => ?_
  refine leads_bind.mpr (leads_of_run run_put ?_)
  refine leads_pure ⟨members, accepted, ?_⟩
  rw [get_put, if_pos ⟨rfl, rfl, rfl⟩]
  rfl

section Samples

def apache : GoString := lit "apache"

def prod : GoString := lit "prod"

def pinned : Members :=
  [(lit "name", .string prod), (cookbookVersions, .object [(apache, .string (lit "= 1.0.0"))])]

def respelled : Members :=
  pinned ++ [(lit "Cookbook_Versions", .object [(apache, .string (lit "any"))])]

def withEnvironment (members : Members) : Store :=
  Store.newMemoryBackend.put acme (ObjectType.segment .environments) prod (storedObject members)

theorem get_withEnvironment :
    (withEnvironment members).get acme (ObjectType.segment .environments) prod = some (storedObject members) := by
  rw [withEnvironment, get_put, if_pos ⟨rfl, rfl, rfl⟩]

/-- A second spelling that adds nothing. -/
def respelledEmpty : Members := pinned ++ [(lit "Cookbook_Versions", .object [])]

theorem appliesFirst_respelledEmpty : AppliesFirst respelledEmpty := by
  have spelled : spellings cookbookVersions (firstOf [] respelledEmpty) =
    [.object [(apache, .string (lit "= 1.0.0"))], .object []] := rfl
  constructor
  · rw [spelled]
    decide
  · intro cookbook
    rw [spelledConstraint, spelled, show firstConstraint respelledEmpty cookbook =
      Json.get [(apache, .string (lit "= 1.0.0"))] cookbook from rfl]
    simp only [List.foldl_cons, List.foldl_nil, constraintAfter, Json.get, List.lookup_cons,
      List.lookup_nil]
    cases cookbook == apache <;> rfl

theorem pinned_constraint_applied :
    ∃ constraints, (envConstraints acme prod).run exec (withEnvironment respelledEmpty) =
      (.ok (some constraints), withEnvironment respelledEmpty) ∧
    constraints[apache]?.map Value.string = some (.string (lit "= 1.0.0")) := by
  have accepted : validateObjectBody .environments [] respelledEmpty = none := by decide +kernel
  obtain ⟨constraints, read, agree⟩ :=
    (validated_constraint_applied_iff get_withEnvironment accepted).mpr appliesFirst_respelledEmpty
  exact ⟨constraints, read, (agree apache).1⟩

theorem unvalidated_constraint_applied : validateObjectBody .environments [] respelled = none ∧
    firstConstraint respelled apache = some (.string (lit "= 1.0.0")) ∧
    ∃ constraints, (envConstraints acme prod).run exec (withEnvironment respelled) =
        (.ok (some constraints), withEnvironment respelled) ∧
      constraints[apache]? = some (lit "any") ∧ validCookbookConstraint (lit "any") = false := by
  have applied : (unmarshalFirst envFields ∅ (storedObject respelled)).bind (·[apache]?) =
      some (lit "any") := by decide +kernel
  obtain ⟨constraints, read, found⟩ := Option.bind_eq_some_iff.mp applied
  refine ⟨by decide +kernel, rfl, constraints, ?_, found, by decide +kernel⟩
  rw [envConstraints, run_get_bind, get_withEnvironment]
  simp only [read]
  rfl

end Samples

end CincServer.Proof.Api
