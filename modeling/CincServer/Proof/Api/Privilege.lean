import CincServer.Proof.Api.Calls
import CincServer.Proof.Decoding
import CincServer.Server.Auth

/-!
# What a successful user update stores
-/

namespace CincServer.Proof.Api
open CincServer.Api CincServer.Json Go Lib Program
open Std.ExtTreeMap (getElem?_erase getElem?_insert)

variable {env : Env} {r : Request} {org segment name : GoString} {s t : Store} {out : Option Object}
  {fieldName : GoString} {obj : Object} {response : Response}

theorem run_storedRecord :
    (storedRecord org segment name).run exec s = (.ok (decodeStored (s.get org segment name)), s) := rfl

theorem run_storedField : (storedField org segment name fieldName).run exec s =
      (.ok (field (decodeStored (s.get org segment name)) fieldName), s) := rfl

theorem run_storedPublicKey : (storedPublicKey org segment name).run exec s =
      (.ok (str (field (decodeStored (s.get org segment name)) (lit "public_key"))), s) := rfl

theorem keysColl_ne (segment name : GoString) : keysColl segment name ≠ segment := by
  intro same
  have := congrArg List.length same
  simp [keysColl, lit] at this

def updateFields (r : Request) (obj : Option Object) : Option Object :=
  deleteField (lit "create_key") (if r.apiVersion ≥ 1 then deleteField (lit "chef_key") obj else obj)

theorem updateBody_ok (ran : (updateBody r).run exec s = (.ok out, t)) :
    t = s ∧ ∃ obj, unmarshalMap r.body = some obj ∧ out = updateFields r obj := by
  unfold updateBody decodeBody at ran
  cases decoded : unmarshalMap r.body with
  | none => simp [decoded, writeError] at ran
  | some obj =>
    simp only [decoded, run_pure_bind] at ran
    split_ifs at ran with v1
    · cases refused : updateKeyFieldsError (contents obj) with
      | some message => simp [refused, writeError] at ran
      | none =>
        simp only [refused, run_pure_bind, run_pure] at ran
        obtain ⟨⟨⟩, rfl⟩ := Prod.mk.inj ran
        exact ⟨rfl, obj, rfl, by rw [updateFields, if_pos v1]⟩
    · simp only [run_pure_bind, run_pure] at ran
      obtain ⟨⟨⟩, rfl⟩ := Prod.mk.inj ran
      exact ⟨rfl, obj, rfl, by rw [updateFields, if_neg v1]⟩

theorem mergeUpdate_ok [Unicode] {obj : Option Object}
    (ran : (mergeUpdate org users name obj).run exec s = (.ok out, t)) :
    t = s ∧ validateUser (contents obj) (decodeStored (s.get org users name)) false = none ∧
      out = some (mergeUser (decodeStored (s.get org users name)) (lowerEmail (contents obj))) := by
  simp only [mergeUpdate, ne_eq, not_true_eq_false, if_false,
    run_bind_of_ok run_storedRecord] at ran
  cases refused : validateUser (contents obj) (decodeStored (s.get org users name)) false with
  | some message => simp [refused, writeError] at ran
  | none =>
    simp only [refused, run_pure] at ran
    obtain ⟨⟨⟩, rfl⟩ := Prod.mk.inj ran
    exact ⟨rfl, rfl, rfl⟩

def updatedKey (env : Env) (regenerate : Bool) (stored merged : Object) : GoString :=
  let given := givenKey env regenerate (merged.erase (lit "private_key"))
  if given ≠ [] then given else str (field stored (lit "public_key"))

theorem setStoredDefaultPublicKey_frame {pub : GoString}
    (ran : (setStoredDefaultPublicKey org segment name pub).run exec s = (.ok (), t))
    {org' coll key : GoString} (other : keysColl segment name ≠ coll) :
    t.get org' coll key = s.get org' coll key := by
  simp only [setStoredDefaultPublicKey, run_get_bind] at ran
  cases row : s.get org (keysColl segment name) defaultKeyName with
  | none =>
    simp only [row, run_pure] at ran
    rw [(Prod.mk.inj ran).2]
  | some raw =>
    rcases decoded : unmarshalMap raw with _ | _ | fields
    · simp [row, decoded] at ran
    · simp [row, decoded, assign] at ran
    · simp only [row, decoded, assign, run_pure_bind, run_put] at ran
      rw [← (Prod.mk.inj ran).2, get_put, if_neg (by simp [other])]

def withKey (key : GoString) (obj : Object) : Object :=
  let bare := (obj.erase (lit "private_key")).erase (lit "chef_key")
  if key ≠ [] then bare.insert (lit "public_key") (.string key) else bare

theorem carryKey_ok {regenerate : Bool} {merged : Object}
    (ran : (carryKey env regenerate org segment name (some merged)).run exec s = (.ok out, t)) :
    (∀ coll key, keysColl segment name ≠ coll → t.get org coll key = s.get org coll key) ∧
      out = some (withKey (updatedKey env regenerate (decodeStored (s.get org segment name)) merged) merged) := by
  unfold carryKey at ran
  unfold updatedKey
  simp only [deleteField, Option.map_some, contents, Option.getD_some] at ran
  by_cases none : givenKey env regenerate (merged.erase (lit "private_key")) = []
  · simp only [none, ne_eq, not_true_eq_false, if_false,
      run_bind_of_ok run_storedPublicKey] at ran ⊢
    unfold withKey
    split_ifs at ran ⊢ with noKey <;> obtain ⟨⟨⟩, rfl⟩ := Prod.mk.inj ran <;> exact ⟨fun _ _ _ => rfl, rfl⟩
  · simp only [ne_eq, none, not_false_eq_true, if_true] at ran ⊢
    obtain ⟨_, s', set, rest⟩ := run_bind_ok.mp ran
    simp only [run_pure_bind, none, not_false_eq_true, if_true, assign, run_pure] at rest
    obtain ⟨⟨⟩, rfl⟩ := Prod.mk.inj rest
    exact ⟨fun coll key other => setStoredDefaultPublicKey_frame set other, by simp [withKey, none]⟩

def withPrivilege (r : Request) (stored obj : Object) : Object :=
  match r.actor with
  | none => obj
  | some actor =>
    if actor.isGlobalAdmin then obj
    else match field stored adminField with
      | .null => obj.erase adminField
      | v => obj.insert adminField v

theorem preservePrivilege_ok (ran : (preservePrivilege r org users name (some obj)).run exec s = (.ok out, t)) :
    t = s ∧ out = some (withPrivilege r (decodeStored (s.get org users name)) obj) := by
  unfold preservePrivilege withPrivilege at *
  simp only [ne_eq, not_true_eq_false, if_false] at ran
  cases requester : r.actor with
  | none =>
    simp only [requester, run_pure] at ran
    obtain ⟨⟨⟩, rfl⟩ := Prod.mk.inj ran
    exact ⟨rfl, rfl⟩
  | some actor =>
    simp only [requester] at ran ⊢
    split_ifs at ran ⊢ with superuser
    · obtain ⟨⟨⟩, rfl⟩ := Prod.mk.inj ran
      exact ⟨rfl, rfl⟩
    · rw [run_bind_of_ok run_storedField] at ran
      cases flag : field (decodeStored (s.get org users name)) adminField <;>
        simp only [flag, deleteField, assign, Option.map_some, run_pure] at ran <;>
        obtain ⟨⟨⟩, rfl⟩ := Prod.mk.inj ran <;> exact ⟨rfl, rfl⟩

def withoutPassword (obj : Object) : Object :=
  match field obj (lit "password") with
  | .string _ => obj.erase (lit "password")
  | _ => obj

theorem stashPassword_ok (ran : (stashPassword env org name (some obj)).run exec s = (.ok out, t)) :
    (∀ coll key, passwordsCollection ≠ coll → t.get org coll key = s.get org coll key) ∧
      out = some (withoutPassword obj) := by
  unfold stashPassword withoutPassword at *
  simp only [contents, Option.getD_some] at ran
  cases password : field obj (lit "password") <;>
    simp only [password, run_put_bind, run_pure, deleteField, Option.map_some] at ran <;>
    obtain ⟨⟨⟩, rfl⟩ := Prod.mk.inj ran
  case string pw =>
    refine ⟨fun coll key other => ?_, rfl⟩
    rw [get_put, if_neg (by simp [other])]
  all_goals exact ⟨fun _ _ _ => rfl, rfl⟩

def updatedUser [Unicode] (env : Env) (r : Request) (stored body : Object) : Object :=
  let merged := mergeUser stored (lowerEmail body)
  withoutPassword (withPrivilege r stored (withKey (updatedKey env (regenerates r merged) stored merged) merged))

def mergedRecord [Unicode] (segment : GoString) (stored : Object) (obj : Option Object) :
    Option Object :=
  if segment ≠ users then obj else some (mergeUser stored (lowerEmail (contents obj)))

def updatedRecord [Unicode] (env : Env) (r : Request) (segment : GoString) (stored : Object)
    (obj : Option Object) : Option Object :=
  (mergedRecord segment stored obj).map fun merged =>
    let keyed := withKey (updatedKey env (regenerates r merged) stored merged) merged
    withoutPassword (if segment = users then withPrivilege r stored keyed else keyed)

theorem updateRecord_users_ok [Unicode]
    (ran : (updateRecord env r org users name).run exec s = (.ok response, t)) :
    ∃ obj, unmarshalMap r.body = some obj ∧
      validateUser (contents (updateFields r obj)) (decodeStored (s.get org users name)) false = none ∧
      ∀ other, t.get org users other =
        if name = other then some (mustEncode (some (updatedUser env r
          (decodeStored (s.get org users name)) (contents (updateFields r obj)))))
        else s.get org users other := by
  obtain ⟨body, s₂, decoded, ran⟩ := run_bind_ok.mp ran
  obtain ⟨merged, s₃, merge, ran⟩ := run_bind_ok.mp ran
  obtain ⟨keyed, s₄, carry, ran⟩ := run_bind_ok.mp ran
  obtain ⟨privileged, s₅, preserve, ran⟩ := run_bind_ok.mp ran
  obtain ⟨stripped, s₆, stash, ran⟩ := run_bind_ok.mp ran
  rw [run_put_bind] at ran
  obtain ⟨rfl, obj, document, rfl⟩ := updateBody_ok decoded
  obtain ⟨rfl, valid, rfl⟩ := mergeUpdate_ok merge
  obtain ⟨keyFrame, rfl⟩ := carryKey_ok carry
  obtain ⟨rfl, rfl⟩ := preservePrivilege_ok preserve
  obtain ⟨passwordFrame, rfl⟩ := stashPassword_ok stash
  rw [keyFrame users name (keysColl_ne users name)] at ran
  refine ⟨obj, document, valid, fun other => ?_⟩
  have stored : t = s₆.put org users name (mustEncode (some (updatedUser env r
      (decodeStored (s₃.get org users name)) (contents (updateFields r obj))))) := by
    split_ifs at ran <;> exact (Prod.mk.inj ran).2.symm
  rw [stored, get_put, passwordFrame users other (by decide),
    keyFrame users other (keysColl_ne users name)]
  simp

theorem scopedPut_users_ok [Unicode]
    (ran : (scopedPut env r org users name).run exec s = (.ok response, t)) :
    ∃ obj, unmarshalMap r.body = some obj ∧
      t.get org users name = some (mustEncode (some (updatedUser env r
        (decodeStored (s.get org users name)) (contents (updateFields r obj))))) := by
  obtain ⟨_, s₁, found, updated⟩ := run_bind_ok.mp ran
  obtain rfl := mustExist_ok found
  obtain ⟨obj, document, -, stored⟩ := updateRecord_users_ok updated
  exact ⟨obj, document, by rw [stored, if_pos rfl]⟩

def present : Value → Option Value
  | .null => none
  | v => some v

def kept (stored body : Object) (name : GoString) : Option Value :=
  match body[name]? with
  | some v => present v
  | none => stored[name]?

theorem getElem?_mergeField (out : Object) (name : GoString) (v : Value) (other : GoString) :
    (mergeField out name v)[other]? = if name = other then present v else out[other]? := by
  cases v <;> simp [mergeField, present, getElem?_erase, getElem?_insert]

theorem getElem?_foldl_mergeField (members : Members)
    (distinct : members.Pairwise fun a b => ¬ compare a.1 b.1 = .eq) (out : Object)
    (name : GoString) :
    (∀ v, (name, v) ∈ members →
      (members.foldl (fun out member => mergeField out member.1 member.2) out)[name]? = present v) ∧
    ((∀ v, (name, v) ∉ members) →
      (members.foldl (fun out member => mergeField out member.1 member.2) out)[name]? = out[name]?) := by
  induction members generalizing out with
  | nil => simp
  | cons member rest ih =>
    obtain ⟨first, v⟩ := member
    obtain ⟨apart, distinct⟩ := List.pairwise_cons.mp distinct
    obtain ⟨inRest, notInRest⟩ := ih distinct (mergeField out first v)
    simp only [List.foldl_cons, List.mem_cons, Prod.mk.injEq]
    constructor
    · rintro w (⟨rfl, rfl⟩ | mem)
      · rw [notInRest fun w mem => apart (name, w) mem (by simp), getElem?_mergeField, if_pos rfl]
      · exact inRest w mem
    · intro absent
      rw [notInRest fun w mem => absent w (.inr mem), getElem?_mergeField,
        if_neg fun same => absent v (.inl ⟨same.symm, rfl⟩)]

theorem getElem?_mergeUser (stored body : Object) (name : GoString) :
    (mergeUser stored body)[name]? = kept stored body name := by
  obtain ⟨named, omitted⟩ :=
    getElem?_foldl_mergeField body.toList Std.ExtTreeMap.distinct_keys_toList stored name
  rw [mergeUser, Std.ExtTreeMap.foldl_eq_foldl_toList, kept]
  cases found : body[name]? with
  | some v => exact named v (Std.ExtTreeMap.mem_toList_iff_getElem?_eq_some.mpr found)
  | none =>
    refine omitted fun v mem => ?_
    rw [Std.ExtTreeMap.mem_toList_iff_getElem?_eq_some.mp mem] at found
    cases found

theorem getElem?_deleteField {name : GoString} (other : fieldName ≠ name) (obj : Option Object) :
    (contents (deleteField fieldName obj))[name]? = (contents obj)[name]? := by
  cases obj <;> simp [contents, deleteField, getElem?_erase, other]

section OtherFields

variable {field : GoString}

theorem getElem?_updateFields (notFlag : lit "create_key" ≠ field)
    (notNested : lit "chef_key" ≠ field) (obj : Option Object) :
    (contents (updateFields r obj))[field]? = (contents obj)[field]? := by
  rw [updateFields, getElem?_deleteField notFlag]
  split_ifs
  · exact getElem?_deleteField notNested obj
  · rfl

theorem getElem?_lowerEmail [Unicode] (other : lit "email" ≠ field) (obj : Object) :
    (lowerEmail obj)[field]? = obj[field]? := by
  unfold lowerEmail
  split
  · simp [getElem?_insert, other]
  · rfl

theorem getElem?_withoutPassword (other : lit "password" ≠ field) (obj : Object) :
    (withoutPassword obj)[field]? = obj[field]? := by
  unfold withoutPassword
  split
  · simp [getElem?_erase, other]
  · rfl

theorem getElem?_withKey (notPrivate : lit "private_key" ≠ field)
    (notNested : lit "chef_key" ≠ field) (key : GoString)
    (obj : Object) :
    (withKey key obj)[field]? = if field = lit "public_key" ∧
      key ≠ [] then some (.string key) else obj[field]? := by
  unfold withKey
  by_cases none : key = []
  · simp [none, getElem?_erase, notPrivate, notNested]
  · simp [none, getElem?_erase, getElem?_insert, notPrivate, notNested, eq_comm (a := field)]

theorem getElem?_withPrivilege_of_ne (other : adminField ≠ field) (stored obj : Object) :
    (withPrivilege r stored obj)[field]? = obj[field]? := by
  unfold withPrivilege
  split
  · rfl
  · split
    · rfl
    · split
      · simp [getElem?_erase, other]
      · simp [getElem?_insert, other]

end OtherFields

theorem getElem?_withPrivilege {r : Request}
    (requester : ∀ actor, r.actor = some actor → actor.isGlobalAdmin = false) (stored obj : Object)
    (name : GoString) :
    (withPrivilege r stored obj)[name]? =
      if name = adminField ∧ r.actor.isSome then present (field stored adminField) else obj[name]? := by
  unfold withPrivilege
  cases authenticated : r.actor with
  | none => simp
  | some actor =>
    simp only [requester actor authenticated, Bool.false_eq_true, if_false, Option.isSome_some,
      and_true]
    cases field stored adminField <;>
      simp [present, getElem?_erase, getElem?_insert, eq_comm (a := name)]

/-! ## The superuser flag across a user update -/

open CincServer.Server Proof.Decoding
open Std.ExtTreeMap (mem_toList_iff_getElem?_eq_some)

variable {name : GoString} {v : Value} {r : Request} {fields fields' : GoString → Option Value}

def adminValue : GoString × Value → Option Bool
  | (name, .bool b) => if foldName name = adminField then some b else none
  | _ => none

theorem adminValue_eq_some {b : Bool} :
    adminValue (name, v) = some b ↔ foldName name = adminField ∧ v = .bool b := by
  cases v <;> simp [adminValue]

def IllTyped (member : GoString × Value) : Prop :=
  storeMember actorRecordFields ⟨[], false⟩ member = none

instance (member : GoString × Value) : Decidable (IllTyped member) :=
  inferInstanceAs (Decidable (_ = none))

def keyValue : GoString × Value → Option GoString
  | (name, .string text) => if foldName name = lit "public_key" then some text else none
  | _ => none

theorem storeMember_actorRecord (rec : ActorRecord) (member : GoString × Value) :
    storeMember actorRecordFields rec member = if IllTyped member then none
      else some ⟨(keyValue member).getD rec.publicKey, (adminValue member).getD rec.admin⟩ := by
  have notKey : lit "admin" ≠ lit "public_key" := by decide
  obtain ⟨name, v⟩ := member
  simp only [IllTyped, actorRecordFields, storeMember_cons, storeMember_nil, StructField.string,
    StructField.bool]
  by_cases key : foldName name = lit "public_key"
  · cases v <;> simp [keyValue, adminValue, key]
  · by_cases admin : foldName name = lit "admin"
    · cases v <;> simp [keyValue, adminValue, admin, notKey, adminField]
    · cases v <;> simp [keyValue, adminValue, key, admin, adminField]

theorem storeMembers_actorRecord (members : Members) (rec : ActorRecord) :
    storeMembers actorRecordFields members rec = if ∃ member ∈ members, IllTyped member then none
      else some ⟨(members.filterMap keyValue).getLastD rec.publicKey, (members.filterMap adminValue).getLastD rec.admin⟩ := by
  induction members generalizing rec with
  | nil => simp [storeMembers]
  | cons member rest ih =>
    rw [storeMembers, storeMember_actorRecord]
    by_cases bad : IllTyped member
    · simp [bad]
    · have others : (∃ other ∈ member :: rest, IllTyped other) ↔ ∃ other ∈ rest, IllTyped other := by
        simp only [List.mem_cons, exists_eq_or_imp, bad, false_or]
      rw [if_neg bad, Option.bind_some, ih, if_congr others rfl rfl]
      simp

def LastSpelling (fields : GoString → Option Value) (name : GoString) (flag : Bool) : Prop :=
  foldName name = adminField ∧ fields name = some (.bool flag) ∧
    ∀ later, foldName later = adminField → compare name later = .lt →
      ∀ b, fields later ≠ some (.bool b)

def WellTyped (fields : GoString → Option Value) : Prop :=
  ∀ name v, fields name = some v → ¬ IllTyped (name, v)

theorem decodedAdmin_mustEncode (obj : Object) :
    decodedAdmin (mustEncode (some obj)) = true ↔
      WellTyped (obj[·]?) ∧ ∃ name, LastSpelling (obj[·]?) name true := by
  have whole : decodedAdmin (mustEncode (some obj)) =
      ((storeMembers actorRecordFields obj.toList ⟨[], false⟩).map ActorRecord.admin).getD false := by
    simp only [decodedAdmin, decodeActorRecord, unmarshalStruct, mustEncode]
    cases storeMembers actorRecordFields obj.toList ⟨[], false⟩ <;> rfl
  rw [whole, storeMembers_actorRecord]
  by_cases bad : ∃ member ∈ obj.toList, IllTyped member
  · simp only [bad, if_true, Option.map_none, Option.getD_none, Bool.false_eq_true, false_iff]
    rintro ⟨typed, -⟩
    obtain ⟨⟨name, v⟩, mem, ill⟩ := bad
    exact typed name v (mem_toList_iff_getElem?_eq_some.mp mem) ill
  · have typed : WellTyped (obj[·]?) := fun name v found ill =>
      bad ⟨(name, v), mem_toList_iff_getElem?_eq_some.mpr found, ill⟩
    simp only [bad, if_false, Option.map_some, Option.getD_some, typed, true_and]
    rw [getLastD_filterMap adminValue Std.ExtTreeMap.ordered_keys_toList]
    constructor
    · rintro ⟨⟨name, v⟩, mem, picked, rest⟩
      obtain ⟨spelled, rfl⟩ := adminValue_eq_some.mp picked
      refine ⟨name, spelled, mem_toList_iff_getElem?_eq_some.mp mem, ?_⟩
      intro later laterSpelled above b found
      have := rest (later, .bool b) (mem_toList_iff_getElem?_eq_some.mpr found) above
      rw [adminValue_eq_some.mpr ⟨laterSpelled, rfl⟩] at this
      cases this
    · rintro ⟨name, spelled, found, rest⟩
      refine ⟨(name, .bool true), mem_toList_iff_getElem?_eq_some.mpr found,
        adminValue_eq_some.mpr ⟨spelled, rfl⟩, ?_⟩
      rintro ⟨later, v⟩ mem above
      by_contra picked
      obtain ⟨b, picked⟩ := Option.ne_none_iff_exists'.mp picked
      obtain ⟨laterSpelled, rfl⟩ := adminValue_eq_some.mp picked
      exact rest later laterSpelled above b (mem_toList_iff_getElem?_eq_some.mp mem)

def Spells (name : GoString) : Prop := foldName name = adminField ∨ foldName name = lit "public_key"

theorem Spells.ne {other : GoString} (spells : Spells name) (notAdmin : foldName other ≠ adminField)
    (notKey : foldName other ≠ lit "public_key") : other ≠ name := by
  rintro rfl
  exact spells.elim notAdmin notKey

/-- The fields an update leaves under the names of the actor record: the flag itself as it was, and
the key under its exact name. -/
def fieldsLeft (r : Request) (key : GoString) (stored body : Object) (name : GoString) :
    Option Value :=
  if name = adminField ∧ r.actor.isSome then present (field stored adminField)
  else if name = lit "public_key" ∧ key ≠ [] then some (.string key)
  else kept stored body name

def keyLeft [Unicode] (env : Env) (r : Request) (stored : Object)
    (obj : Option Object) : GoString :=
  let merged := mergeUser stored (lowerEmail (contents (updateFields r obj)))
  updatedKey env (regenerates r merged) stored merged

theorem getElem?_updatedUser [Unicode] {env : Env}
    (requester : ∀ actor, r.actor = some actor → actor.isGlobalAdmin = false) (spells : Spells name)
    (stored : Object) (obj : Option Object) :
    (updatedUser env r stored (contents (updateFields r obj)))[name]? =
      fieldsLeft r (keyLeft env r stored obj) stored (contents obj) name := by
  have ne (other : GoString) (plain : foldName other ≠ adminField ∧ foldName other ≠ lit "public_key") : other ≠ name :=
    spells.ne plain.1 plain.2
  rw [updatedUser, getElem?_withoutPassword (ne _ (by decide)), getElem?_withPrivilege requester,
    getElem?_withKey (ne _ (by decide)) (ne _ (by decide)), getElem?_mergeUser, kept, getElem?_lowerEmail (ne _ (by decide)),
    getElem?_updateFields (ne _ (by decide)) (ne _ (by decide))]
  rfl

theorem IllTyped.spells (ill : IllTyped (name, v)) : Spells name := by
  by_contra other
  obtain ⟨notAdmin, notKey⟩ := not_or.mp other
  simp [IllTyped, actorRecordFields, StructField.string, StructField.bool, notKey,
    adminField] at ill notAdmin
  simp [notAdmin] at ill

theorem wellTyped_congr
    (same : ∀ name, Spells name → fields name = fields' name) : WellTyped fields ↔
      WellTyped fields' := by
  constructor <;> intro typed name v found ill
  · exact typed name v (by rw [same name ill.spells, found]) ill
  · exact typed name v (by rw [← same name ill.spells, found]) ill

theorem lastSpelling_congr (same : ∀ name, Spells name → fields name = fields' name)
    (name : GoString) (flag : Bool) :
    LastSpelling fields name flag ↔ LastSpelling fields' name flag := by
  refine and_congr_right fun spelled => ?_
  rw [same name (.inl spelled)]
  refine and_congr_right fun _ => forall_congr' fun later => imp_congr_right fun laterSpelled => ?_
  rw [same later (.inl laterSpelled)]

/-- The flag is the one these fields give a record: a field of the wrong type makes it unreadable,
the exact name decides when it holds a boolean, and otherwise the last of the other spellings. -/
structure FlagOf (fields : GoString → Option Value) (flag : Bool) : Prop where
  illTyped : ¬ WellTyped fields → flag = false
  exact : WellTyped fields → ∀ b, fields adminField = some (.bool b) → flag = b
  spelled : WellTyped fields → (∀ b, fields adminField ≠ some (.bool b)) →
    (flag = true ↔ ∃ name, name ≠ adminField ∧ LastSpelling fields name true)

theorem foldName_adminField : foldName adminField = adminField := by decide

theorem compare_adminField (spelled : foldName name = adminField)
    (other : name ≠ adminField) : compare name adminField = .lt := by
  have below : byteLe name adminField := byteLe_of_foldName (by decide) (by decide) spelled
  unfold byteLe at below
  cases order : compare name adminField with
  | lt => rfl
  | eq => exact absurd (Std.compare_eq_iff_eq.mp order) other
  | gt => simp [order] at below

theorem flagOf_iff {flag : Bool} :
    FlagOf fields flag ↔ (flag = true ↔ WellTyped fields ∧ ∃ name, LastSpelling fields name true) := by
  by_cases typed : WellTyped fields
  swap
  · simp only [typed, false_and, iff_false, Bool.not_eq_true]
    exact ⟨fun carried => carried.illTyped typed,
      fun off => ⟨fun _ => off, fun on => absurd on typed, fun on => absurd on typed⟩⟩
  simp only [typed, true_and]
  by_cases exactly : ∃ b, fields adminField = some (.bool b)
  · obtain ⟨b, found⟩ := exactly
    have decides : (∃ name, LastSpelling fields name true) ↔ b = true := by
      constructor
      · rintro ⟨name, spelled, here, last⟩
        by_cases same : name = adminField
        · simpa [same ▸ here] using found.symm
        · exact absurd found (last adminField foldName_adminField (compare_adminField spelled same) b)
      · rintro rfl
        refine ⟨adminField, foldName_adminField, found, fun later spelled above => ?_⟩
        by_cases same : later = adminField
        · simp [same] at above
        · rw [Std.OrientedOrd.eq_swap, compare_adminField spelled same] at above
          cases above
    rw [decides]
    constructor
    · intro carried
      rw [carried.exact typed b found]
    · intro same
      refine ⟨fun ill => absurd typed ill, fun _ c found' => ?_, fun _ no => absurd found (no b)⟩
      rw [found] at found'
      simp only [Option.some.injEq, Value.bool.injEq] at found'
      rw [← found', Bool.eq_iff_iff, same]
  · have others : (∃ name, LastSpelling fields name true) ↔
        ∃ name, name ≠ adminField ∧ LastSpelling fields name true := by
      refine exists_congr fun name => (and_iff_right_of_imp fun last => ?_).symm
      rintro rfl
      exact exactly ⟨true, last.2.1⟩
    have noBool : ∀ b, fields adminField ≠ some (.bool b) := fun b found => exactly ⟨b, found⟩
    rw [others]
    exact ⟨fun carried => carried.spelled typed noBool,
      fun same => ⟨fun ill => absurd typed ill, fun _ b found => absurd found (noBool b), fun _ _ => same⟩⟩

/-- An update keeps the superuser flag of a record exactly when the fields it leaves, by whatever
spelling, give the flag the record had. -/
theorem put_keeps_admin_iff [Unicode] {env : Env} {r : Request} {name : GoString} {s t : Store}
    {response : Response} {obj : Option Object} {before after : Raw}
    (requester : ∀ actor, r.actor = some actor → actor.isGlobalAdmin = false)
    (stored : s.get global users name = some before) (body : unmarshalMap r.body = some obj)
    (ran : (scopedPut env r global users name).run exec s = (.ok response, t))
    (written : t.get global users name = some after) :
    decodedAdmin after = decodedAdmin before ↔
      FlagOf (fieldsLeft r (keyLeft env r (decodeStored (some before)) obj) (decodeStored (some before))
        (contents obj)) (decodedAdmin before) := by
  obtain ⟨obj', body', put⟩ := scopedPut_users_ok ran
  obtain rfl : obj' = obj := Option.some.inj (body'.symm.trans body)
  rw [stored, written] at put
  obtain rfl := Option.some.inj put
  have same (name : GoString) (spells : Spells name) :
      (updatedUser env r (decodeStored (some before)) (contents (updateFields r obj')))[name]? = _ :=
    getElem?_updatedUser requester spells (decodeStored (some before)) obj'
  rw [flagOf_iff, ← wellTyped_congr same,
    ← exists_congr fun name => lastSpelling_congr same name true,
    ← decodedAdmin_mustEncode, Bool.eq_iff_iff]
  exact Iff.comm

section Escalation

def bob : GoString := lit "bob"

def profile : Members :=
  [(lit "display_name", .string (lit "Bob")), (lit "email", .string (lit "bob@example.com"))]

def bobRecord : Raw := .document (.object ((lit "name", .string bob) :: profile))

def bobStore : Store := Store.newMemoryBackend.put global users bob bobRecord

def bobPuts (body : Members) : Request where
  actor := some ⟨bob, false, false, false⟩
  apiVersion := 1
  body := .document (.object body)
  baseURL := lit "https://chef.example.com"

def noKeys : Env := ⟨[], [], [], id, fun _ => false⟩

def adminAfter [Unicode] (s : Store) (name : GoString) (r : Request) : Option Bool :=
  match (scopedPut noKeys r global users name).run exec s with
  | (.ok _, t) => (t.get global users name).map decodedAdmin
  | (.error _, _) => none

theorem adminAfter_isSome [Unicode] {s : Store} (succeeds : (adminAfter s name r).isSome) :
    ∃ response t after, (scopedPut noKeys r global users name).run exec s = (.ok response, t) ∧
      t.get global users name = some after := by
  unfold adminAfter at succeeds
  rcases ran : (scopedPut noKeys r global users name).run exec s with ⟨_ | response, t⟩
  · simp [ran] at succeeds
  · simp only [ran, Option.isSome_map, Option.isSome_iff_exists] at succeeds
    obtain ⟨after, written⟩ := succeeds
    exact ⟨response, t, after, rfl, written⟩

theorem put_keeps_admin_iff_profile :
    letI : Unicode := ⟨id⟩
    ∃ response t after,
      (scopedPut noKeys (bobPuts profile) global users bob).run exec bobStore = (.ok response, t) ∧
      t.get global users bob = some after ∧
      (decodedAdmin after = decodedAdmin bobRecord ↔
        FlagOf (fieldsLeft (bobPuts profile)
          (keyLeft noKeys (bobPuts profile) (decodeStored (some bobRecord)) (some (canonicalMembers ∅ profile)))
          (decodeStored (some bobRecord)) (canonicalMembers ∅ profile)) (decodedAdmin bobRecord)) := by
  let _ : Unicode := ⟨id⟩
  have succeeds : (adminAfter bobStore bob (bobPuts profile)).isSome := by decide +kernel
  obtain ⟨response, t, after, ran, written⟩ := adminAfter_isSome succeeds
  have stored : bobStore.get global users bob = some bobRecord := by
    rw [bobStore, get_put, if_pos ⟨rfl, rfl, rfl⟩]
  exact ⟨response, t, after, ran, written,
    put_keeps_admin_iff (by rintro _ ⟨⟩; rfl) stored rfl ran written⟩

theorem put_grants_admin_by_spelling :
    letI : Unicode := ⟨id⟩
    decodedAdmin bobRecord = false ∧
      adminAfter bobStore bob (bobPuts (profile ++ [(lit "Admin", .bool true)])) = some true := by
  decide +kernel

end Escalation

end CincServer.Proof.Api
