import CincServer.Proof.Api.KeyMap

/-!
# The keys that sign are the keys that are shown
-/

namespace CincServer.Proof.Api
open CincServer.Api CincServer.Json CincServer.Server Proof.Decoding Go Lib Program

variable {s t : Store} {route : ActorRoute} {name key pub exp : GoString} {r : Request} {env : Env} {a : Account}
  {obj : Object} {raw : Raw}

theorem keyValue_eq_some {v : Value} {text : GoString} :
    keyValue (name, v) = some text ↔ foldName name = lit "public_key" ∧ v = .string text := by
  cases v <;> simp [keyValue]

theorem storeMembers_key {members : Members} {rec : ActorRecord}
    (typed : ∀ member ∈ members, ¬ IllTyped member) :
    (storeMembers actorRecordFields members rec).map ActorRecord.publicKey =
      some ((members.filterMap keyValue).getLastD rec.publicKey) := by
  rw [storeMembers_actorRecord, if_neg fun ⟨member, mem, ill⟩ => typed member mem ill]
  rfl

def PlainRecord (obj : Object) : Prop := ∀ (name : GoString) v, obj[name]? = some v →
  ¬ IllTyped (name, v) ∧ (foldName name = lit "public_key" → name = lit "public_key")

theorem PlainRecord.insert {v : Value} (plain : PlainRecord obj) (typed : ¬ IllTyped (name, v))
    (spelled : foldName name = lit "public_key" → name = lit "public_key") :
    PlainRecord (obj.insert name v) := by
  intro other w found
  rw [Std.ExtTreeMap.getElem?_insert] at found
  split_ifs at found with same
  · obtain rfl : name = other := Std.LawfulEqCmp.eq_of_compare same
    cases found
    exact ⟨typed, spelled⟩
  · exact plain other w found

theorem plainRecord_canonicalMembers {members : Members} (plain : PlainRecord obj)
    (each : ∀ member ∈ members, ¬ IllTyped (member.1, canonical member.2) ∧
      (foldName member.1 = lit "public_key" → member.1 = lit "public_key")) :
    PlainRecord (canonicalMembers obj members) := by
  induction members generalizing obj with
  | nil => rwa [canonicalMembers]
  | cons member rest ih =>
    obtain ⟨⟨typed, spelled⟩, others⟩ := List.forall_mem_cons.mp each
    rw [canonicalMembers]
    exact ih (plain.insert typed spelled) others

theorem recordLike_plainRecord : RecordLike PlainRecord where
  empty name v found := by simp at found
  erase name plain other v found := by
    rw [Std.ExtTreeMap.getElem?_erase] at found
    split_ifs at found
    exact plain other v found
  text {obj name} text mem plain := by
    have email : foldName (lit "email") ≠ lit "public_key" := by decide
    simp only [List.mem_cons, List.not_mem_nil, or_false] at mem
    rcases mem with rfl | rfl
    · exact plain.insert (by rintro ⟨⟩) fun _ => rfl
    · exact plain.insert (by rintro ⟨⟩) fun spelled => absurd spelled email
  field {obj source name v} plain given stored :=
    let ⟨typed, spelled⟩ := given name v stored
    plain.insert typed spelled

theorem decodedKey_mustEncode (plain : PlainRecord obj) :
    (decodeActorRecord (mustEncode (some obj))).map ActorRecord.publicKey = some (str (field obj (lit "public_key"))) := by
  have typed (member : GoString × Value) (mem : member ∈ obj.toList) : ¬ IllTyped member :=
    (plain member.1 member.2 (Std.ExtTreeMap.mem_toList_iff_getElem?_eq_some.mp mem)).1
  have all (text : GoString) (mem : text ∈ obj.toList.filterMap keyValue) :
      text = str (field obj (lit "public_key")) := by
    obtain ⟨⟨name, v⟩, listed, picked⟩ := List.mem_filterMap.mp mem
    obtain ⟨spelled, rfl⟩ := keyValue_eq_some.mp picked
    have found := Std.ExtTreeMap.mem_toList_iff_getElem?_eq_some.mp listed
    have exactly : name = lit "public_key" := (plain name _ found).2 spelled
    rw [field_eq, ← exactly, found]
    rfl
  refine (storeMembers_key typed).trans (congrArg some ?_)
  cases values : obj.toList.filterMap keyValue with
  | nil =>
    by_contra unset
    cases found : field obj (lit "public_key") with
    | string text =>
      rw [field_eq] at found
      cases member : obj[lit "public_key"]? with
      | none => simp [member] at found
      | some v =>
        rw [member] at found
        obtain rfl : v = .string text := found
        have listed := Std.ExtTreeMap.mem_toList_iff_getElem?_eq_some.mpr member
        have picked : keyValue (lit "public_key", .string text) = some text :=
          keyValue_eq_some.mpr ⟨by decide, rfl⟩
        have mem := List.mem_filterMap.mpr ⟨_, listed, picked⟩
        rw [values] at mem
        cases mem
    | _ => exact unset (by rw [found]; rfl)
  | cons first rest =>
    refine all _ ?_
    rw [values, List.getLastD_cons]
    exact List.getLastD_mem_cons ..

structure ReadsAlike (raw : Raw) (obj : Object) : Prop where
  decoded : unmarshalMap raw = some (some obj)
  plain : PlainRecord obj
  key : (decodeActorRecord raw).map ActorRecord.publicKey = some (str (field obj (lit "public_key")))

theorem readsAlike_mustEncode (settled : SettledMap obj) (plain : PlainRecord obj) :
    ReadsAlike (mustEncode (some obj)) obj :=
  ⟨settled.unmarshalMap_mustEncode, plain, decodedKey_mustEncode plain⟩

structure InStep (a : Account) : Prop where
  record : ∀ raw, a.record = some raw → ∃ obj, ReadsAlike raw obj
  row : ∀ key raw, a.rows key = some raw → a.record.isSome ∧ ∃ pub exp, raw = keyRow key pub exp ∧ pub ≠ []
  default : ∀ pub exp, a.rows defaultKeyName = some (keyRow defaultKeyName pub exp) → a.publicKey = pub

theorem inStep_gone : InStep .gone := ⟨nofun, nofun, nofun⟩

theorem InStep.publicKey (reads : ReadsAlike raw obj) :
    (a.putRecord raw).publicKey = str (field obj (lit "public_key")) := by
  simp [Account.publicKey, decodeStored, reads.decoded, contents]

theorem InStep.putRow (inStep : InStep a) (present : a.record.isSome)
    (plain : key ≠ defaultKeyName) (given : pub ≠ []) :
    InStep (a.putRow key pub exp) := by
  refine ⟨inStep.record, fun other raw found => ?_, fun pub exp found => ?_⟩
  · obtain ⟨rfl, rfl⟩ | before := Account.row_of_putRow found
    · exact ⟨present, pub, exp, rfl, given⟩
    · exact inStep.row other raw before
  · rw [Account.putRow_rows, Function.update_of_ne plain.symm] at found
    exact inStep.default pub exp found

theorem InStep.dropRow (inStep : InStep a) : InStep (a.dropRow key) :=
  ⟨inStep.record, fun other raw found => inStep.row other raw (Account.row_of_dropRow found), fun pub exp found =>
    inStep.default pub exp (Account.row_of_dropRow found)⟩

theorem InStep.putRecord (inStep : InStep a) (reads : ReadsAlike raw obj)
    (agrees : ∀ pub exp, a.rows defaultKeyName = some (keyRow defaultKeyName pub exp) →
      str (field obj (lit "public_key")) = pub) : InStep (a.putRecord raw) := by
  refine ⟨fun _ stored => Option.some.inj stored ▸ ⟨obj, reads⟩, fun key row found => ?_,
    fun pub exp found => ?_⟩
  · exact ⟨rfl, (inStep.row key row found).2⟩
  · rw [publicKey reads]
    exact agrees pub exp found

theorem InStep.putDefault (inStep : InStep a) (reads : ReadsAlike raw obj) (given : pub ≠ [])
    (same : str (field obj (lit "public_key")) = pub) :
    InStep ((a.putRow defaultKeyName pub exp).putRecord raw) := by
  refine ⟨fun _ stored => Option.some.inj stored ▸ ⟨obj, reads⟩, fun key row found => ⟨rfl, ?_⟩,
    fun pub' exp' found => ?_⟩
  · obtain ⟨rfl, rfl⟩ | before := Account.row_of_putRow found
    · exact ⟨pub, exp, rfl, given⟩
    · exact (inStep.row key row before).2
  · rw [Account.putRecord_rows, Account.putRow_rows, Function.update_self] at found
    have read := congrArg (unmarshalStruct storedKeyFields ⟨[], []⟩) (Option.some.inj found)
    rw [decode_keyRow, decode_keyRow] at read
    rw [publicKey reads, same]
    exact congrArg StoredKey.publicKey (Option.some.inj read)

theorem Loads.present {actor : Option Object} (loads : Loads s route name actor) :
    (accounts s (route, name)).record.isSome := by
  obtain ⟨raw, stored, -⟩ := loads
  exact Option.isSome_of_eq_some stored

section Actor

variable {actor : Option Object} (inStep : InStep (accounts s (route, name))) (loads : Loads s route name actor)
include inStep loads

theorem InStep.object : ∃ obj, actor = some obj ∧ SettledMap obj ∧ PlainRecord obj := by
  obtain ⟨raw, stored, decoded⟩ := loads
  obtain ⟨obj, reads⟩ := inStep.record raw stored
  have same := decoded.symm.trans reads.decoded
  exact ⟨obj, Option.some.inj same, settledMap_of_unmarshalMap reads.decoded, reads.plain⟩

theorem InStep.keyed (given : pub ≠ []) :
    ∃ obj, ReadsAlike (mustEncode (recordWith pub actor)) obj ∧
    str (field obj (lit "public_key")) = pub := by
  obtain ⟨obj, rfl, settled, plain⟩ := inStep.object loads
  refine ⟨obj.insert (lit "public_key") (.string pub), ?_, congrArg str field_insert_self⟩
  rw [recordWith, if_neg given]
  exact readsAlike_mustEncode (recordLike_settledMap.text pub (by simp) settled)
    (recordLike_plainRecord.text pub (by simp) plain)

theorem InStep.unkeyed : ∃ obj, ReadsAlike (mustEncode (recordWith [] actor)) obj := by
  obtain ⟨obj, rfl, settled, plain⟩ := inStep.object loads
  exact ⟨obj.erase (lit "public_key"), readsAlike_mustEncode (recordLike_settledMap.erase _ settled)
    (recordLike_plainRecord.erase _ plain)⟩

theorem InStep.mirror (still : InStep a) (present : a.record.isSome) (given : pub ≠ []) :
    InStep ((a.putRow key pub exp).mirror key (mustEncode (recordWith pub actor))) := by
  unfold Account.mirror
  split
  · next isDefault =>
    subst isDefault
    obtain ⟨obj, reads, same⟩ := inStep.keyed loads given
    exact still.putDefault reads given same
  · next plain => exact still.putRow present plain given

theorem InStep.bare (still : InStep a) :
    InStep ((a.dropRow defaultKeyName).putRecord (mustEncode (recordWith [] actor))) := by
  obtain ⟨obj, reads⟩ := inStep.unkeyed loads
  refine still.dropRow.putRecord reads fun pub exp found => ?_
  rw [Account.dropRow_rows, Function.update_self] at found
  cases found

theorem InStep.rename {new : GoString} {stored : StoredKey} (apart : new ≠ key)
    (given : stored.publicKey ≠ []) :
    InStep ((accounts s (route, name)).rename key new stored actor) := by
  unfold Account.rename
  dsimp only
  split
  · next isDefault =>
    subst isDefault
    exact inStep.bare loads (inStep.putRow loads.present apart given)
  · have swap : ((accounts s (route, name)).putRow new stored.publicKey stored.expirationDate).dropRow key =
        ((accounts s (route, name)).dropRow key).putRow new stored.publicKey stored.expirationDate := by
      unfold Account.putRow Account.dropRow
      rw [Function.update_comm apart]
    rw [swap]
    exact inStep.mirror loads inStep.dropRow loads.present given

end Actor

theorem orElse_ne_nil {given fallback : GoString} (filled : fallback ≠ []) :
    orElse given fallback ≠ [] := by
  unfold orElse
  split
  · exact filled
  · next given => exact given

theorem InStep.shaped (inStep : InStep a) : DefaultShaped a := fun raw stored =>
  let ⟨_, pub, exp, same, _⟩ := inStep.row defaultKeyName raw stored
  ⟨pub, exp, same⟩

theorem Held.ne_nil {actor : Option Object} {old : StoredKey} (inStep : InStep a)
    (held : Held a actor key old) :
    old.publicKey ≠ [] := by
  cases held with
  | row stored read =>
    obtain ⟨-, pub, exp, rfl, given⟩ := inStep.row key _ stored
    rw [decode_keyRow] at read
    exact Option.some.inj read ▸ given
  | own absent keyed => exact keyed

theorem KeyEffect.inStep {actor : Option Object} {request : KeyWrite} {torn done : Account}
    (inStep : InStep (accounts s (route, name))) (loads : Loads s route name actor)
    (effect : KeyEffect (accounts s (route, name)) actor request torn done)
    (generates : ∀ env r, request = .add env r → env.publicKey ≠ []) : InStep done := by
  cases effect with
  | added given named isPub =>
    exact inStep.mirror loads inStep loads.present (isPub ▸ orElse_ne_nil (generates _ _ rfl))
  | amended given held named amends =>
    exact inStep.mirror loads inStep loads.present (amends ▸ orElse_ne_nil (held.ne_nil inStep))
  | renamed given stored held named apart amends =>
    exact inStep.rename loads apart (amends ▸ orElse_ne_nil (held.ne_nil inStep))
  | dropped => exact inStep.dropRow
  | bared => exact inStep.bare loads inStep

theorem InStep.plain (inStep : InStep (accounts s (route, name))) :
    PlainRecord (decodeStored (s.get route.org route.segment name)) := by
  unfold decodeStored
  cases found : s.get route.org route.segment name with
  | none => exact recordLike_plainRecord.empty
  | some raw =>
    obtain ⟨obj, reads⟩ := inStep.record raw found
    rw [Option.bind_some, reads.decoded]
    exact reads.plain

theorem UpdatesRecord.inStep [Unicode] {body out : Option Object} {given : GoString} {a : Account}
    (inStep : InStep (accounts s (route, name))) (generated : env.publicKey ≠ [])
    (decoded : unmarshalMap r.body = some body)
    (plain : PlainRecord (contents body)) (whole : route = .users ∨ body.isSome)
    (updates : UpdatesRecord s route name env r body given out)
    (rotates : Rotates (accounts s (route, name)) given a) :
    InStep (a.putRecord (mustEncode out)) := by
  obtain ⟨obj, rfl⟩ := Option.isSome_iff_exists.mp (updates.isSome whole)
  have settled : SettledMap obj := updates.derived _ recordLike_settledMap
    (by simp [settledMap_decodeStored, settledMap_contents decoded])
  have plain : PlainRecord obj :=
    updates.derived _ recordLike_plainRecord (by simp [inStep.plain, plain])
  have reads := readsAlike_mustEncode settled plain
  have key : str (field obj (lit "public_key")) =
      orElse given (accounts s (route, name)).publicKey := updates.publicKey generated rfl
  cases rotates with
  | same none =>
    refine inStep.putRecord reads fun pub exp found => ?_
    rw [key]
    rcases none with isEmpty | absent
    · rw [orElse, if_pos isEmpty]
      exact inStep.default pub exp found
    · rw [absent] at found
      cases found
  | row pub exp new => exact inStep.putDefault reads new (by rw [key, orElse, if_neg new])

def GeneratesKeys : ApiRequest → Prop
  | .actor _ (.put env _ _) => env.publicKey ≠ []
  | .actor _ (.key _ (.add env _)) => env.publicKey ≠ []
  | _ => True

/-- A body that creates or updates an actor spells "public_key" in one way, has no field of the wrong
type for the struct, and is not the null that would become the record of a client. -/
def WritesPlainly : ApiRequest → Prop
  | .actor _ (.create _ r) => ∀ body, unmarshalMap r.body = some body → PlainRecord (contents body)
  | .actor route (.put _ r _) => ∀ body, unmarshalMap r.body = some body →
      PlainRecord (contents body) ∧ (route = .users ∨ body.isSome)
  | _ => True

theorem readsAlike_validator : ∃ obj, ReadsAlike (validatorDoc env name) obj := by
  have other : foldName (lit "name") ≠ lit "public_key" ∧
      foldName (lit "clientname") ≠ lit "public_key" ∧
      foldName (lit "validator") ≠ lit "public_key" := by decide
  refine ⟨_, rfl, plainRecord_canonicalMembers recordLike_plainRecord.empty ?_, rfl⟩
  simp only [List.forall_mem_cons, canonical]
  refine ⟨⟨nofun, ?_⟩, ⟨nofun, ?_⟩, ⟨nofun, ?_⟩, ⟨nofun, fun _ => trivial⟩, by simp⟩
  · exact fun spelled => absurd spelled other.1
  · exact fun spelled => absurd spelled other.2.1
  · exact fun spelled => absurd spelled other.2.2

theorem AccountEffect.inStep [Unicode] {request : ApiRequest} {who : ActorRoute × GoString}
    (all : AllAccounts InStep s)
    (generates : GeneratesKeys request) (plain : WritesPlainly request)
    (effect : AccountEffect s request who a) : InStep a := by
  cases effect with
  | created registers =>
    obtain ⟨body, decoded, derived⟩ := registers.derived
    obtain ⟨obj, rfl⟩ := Option.isSome_iff_exists.mp registers.isSome
    have settled : SettledMap obj :=
      derived _ recordLike_settledMap (by simp [settledMap_contents decoded])
    have plain : PlainRecord obj := derived _ recordLike_plainRecord (by simp [plain body decoded])
    refine (all _).putRecord (readsAlike_mustEncode settled plain) fun pub exp found => ?_
    obtain ⟨present, -⟩ := (all _).row _ _ found
    rw [show Account.record _ = none from registers.fresh] at present
    cases present
  | updated decoded updates rotates =>
    obtain ⟨plain, whole⟩ := plain _ decoded
    exact updates.inStep (all _) generates decoded plain whole rotates
  | key loads effect =>
    refine effect.inStep (all _) loads ?_
    rintro env r rfl
    exact generates
  | torn loads effect =>
    obtain ⟨obj, isNone, -⟩ := (all _).object loads
    cases isNone
  | deleted | removed => exact inStep_gone
  | validator =>
    obtain ⟨obj, reads⟩ := readsAlike_validator
    exact inStep_gone.putRecord reads nofun

def current [Clock] (now : Int) (bound : StoredKey) : Option GoString :=
  if keyExpired bound.expirationDate now then none else some bound.publicKey

def shownPublicKey (s : Store) (route : ActorRoute) (name key : GoString) : GoString :=
  match ((getKey route name key).run exec s).1 with
  | .ok (.json _ raw) => str (field (decodeStored (some raw)) (lit "public_key"))
  | _ => []

theorem keyring_row (stored : (accounts s (route, name)).rows key = some (keyRow key pub exp)) :
    keyring s (route, name) key = some ⟨pub, exp⟩ := by
  rw [keyring, Account.keys, stored]
  rfl

theorem shownPublicKey_eq {bound : StoredKey} (regular : AllAccounts Regular s)
    (resolves : Resolves s route)
    (present : (s.get route.org route.segment name).isSome)
    (binds : keyring s (route, name) key = some bound) :
    shownPublicKey s route name key = bound.publicKey := by
  have answers := @getKey_shows _ _ _ key regular resolves present
  rw [binds] at answers
  obtain ⟨raw, answer, shows⟩ := answers
  rw [shownPublicKey, answer]
  exact congrArg str shows.publicKey

def ownKey (s : Store) (route : ActorRoute) (name : GoString) : List GoString :=
  if ((accounts s (route, name)).rows defaultKeyName).isNone ∧ (accounts s (route, name)).publicKey ≠ [] then
    [(accounts s (route, name)).publicKey] else []

section Listing

variable [Clock] {now : Int} (regular : AllAccounts Regular s) (resolves : Resolves s route)
  (present : (s.get route.org route.segment name).isSome)
include regular resolves present

theorem run_listedRows {keys : List GoString}
    (stored : ∀ key ∈ keys, ((accounts s (route, name)).rows key).isSome) :
    ∃ listed, (listedRows route.org (keysColl route.segment name) now keys).run exec s =
      (.ok listed, s) ∧
      (listed.filter fun key => !key.2).map (fun key => shownPublicKey s route name key.1) =
        keys.filterMap fun key => (keyring s (route, name) key).bind (current now) := by
  induction keys with
  | nil => exact ⟨[], rfl, rfl⟩
  | cons key keys ih =>
    obtain ⟨first, rest⟩ := List.forall_mem_cons.mp stored
    obtain ⟨raw, first⟩ := Option.isSome_iff_exists.mp first
    obtain ⟨pub, exp, rfl⟩ := (regular _).row key raw first
    obtain ⟨listed, ran, same⟩ := ih rest
    have found : s.get route.org (keysColl route.segment name) key = some (keyRow key pub exp) := first
    refine ⟨(key, keyExpired exp now) :: listed, ?_, ?_⟩
    · rw [listedRows, run_get_bind, found]
      exact run_bind_of_ok ran _
    · have bound := keyring_row first
      rw [List.filterMap_cons, bound, Option.bind_some, current, ← same]
      cases keyExpired exp now with
      | true => rfl
      | false => simp [shownPublicKey_eq regular resolves present bound]

theorem run_listedKeys : ∃ listed, (listedKeys route name now).run exec s = (.ok listed, s) ∧
    (listed.filter fun key => !key.2).map (fun key => shownPublicKey s route name key.1) =
      ownKey s route name ++ (s.keys route.org (keysColl route.segment name)).filterMap fun key =>
        (keyring s (route, name) key).bind (current now) := by
  obtain ⟨raw, record⟩ := Option.isSome_iff_exists.mp present
  obtain ⟨actor, decoded⟩ := (regular (route, name)).record raw record
  have loads : Loads s route name actor := ⟨raw, record, decoded⟩
  have stored : ∀ key ∈ s.keys route.org (keysColl route.segment name), ((accounts s (route, name)).rows key).isSome :=
    fun key mem => mem_keys.mp mem
  obtain ⟨listed, ran, same⟩ := @run_listedRows _ _ _ _ now regular resolves present _ stored
  refine ⟨(if (s.get route.org (keysColl route.segment name) defaultKeyName).isNone ∧ actorKey actor ≠ [] then
    [(defaultKeyName, false)] else []) ++ listed, ?_, ?_⟩
  · rw [listedKeys, run_scope_bind resolves, run_loadActor_bind loads, run_get_bind, run_keys_bind]
    exact run_bind_of_ok ran _
  · rw [List.filter_append, List.map_append, same, ownKey, loads.publicKey]
    congr 1
    by_cases own : ((accounts s (route, name)).rows defaultKeyName).isNone ∧ actorKey actor ≠ []
    · rw [if_pos own, if_pos (show (s.get _ _ _).isNone ∧ _ from own)]
      have bound : keyring s (route, name) defaultKeyName = some ⟨actorKey actor, infinity⟩ := by
        rw [keyring, Account.keys, Option.isNone_iff_eq_none.mp own.1, loads.publicKey, keyFrom,
          if_pos ⟨rfl, own.2⟩]
      exact congrArg ([·]) (shownPublicKey_eq regular resolves present bound)
    · rw [if_neg own, if_neg (show ¬ ((s.get _ _ _).isNone ∧ _) from own)]
      rfl

end Listing

section Signing

variable [Clock] {now : Int} (all : AllAccounts InStep s)
include all

theorem signingKey_row {row : GoString × Raw}
    (mem : row ∈ s.range route.org (keysColl route.segment name)) :
    signingKey now row.2 = (keyring s (route, name) row.1).bind (current now) := by
  obtain ⟨key, raw⟩ := row
  have stored : (accounts s (route, name)).rows key = some raw := mem_range.mp mem
  obtain ⟨-, pub, exp, rfl, given⟩ := (all (route, name)).row key raw stored
  rw [keyring_row stored, signingKey, decode_keyRow]
  simp [current, given]

theorem run_signingKeys :
    ∃ pems, (signingKeys route.org route.segment name (accounts s (route, name)).publicKey now).run
    exec s = (.ok pems, s) ∧ pems.Perm (ownKey s route name ++
      (s.keys route.org (keysColl route.segment name)).filterMap fun key =>
        (keyring s (route, name) key).bind (current now)) := by
  have rows : (s.range route.org (keysColl route.segment name)).filterMap (fun row => signingKey now row.2) =
      ((s.range route.org (keysColl route.segment name)).map Prod.fst).filterMap fun key =>
        (keyring s (route, name) key).bind (current now) := by
    rw [List.filterMap_map]
    exact List.filterMap_congr fun row mem => signingKey_row all mem
  have names : ((s.range route.org (keysColl route.segment name)).map Prod.fst).Perm
      (s.keys route.org (keysColl route.segment name)) := by
    refine (List.perm_ext_iff_of_nodup nodup_range_fst nodup_keys).mpr fun key => ?_
    rw [mem_keys, Option.isSome_iff_exists, List.mem_map]
    constructor
    · rintro ⟨⟨_, raw⟩, mem, rfl⟩
      exact ⟨raw, mem_range.mp mem⟩
    · rintro ⟨raw, stored⟩
      exact ⟨(key, raw), mem_range.mpr stored, rfl⟩
  have unlisted : (∀ row ∈ s.range route.org (keysColl route.segment name), row.1 ≠ defaultKeyName) ↔
      ((accounts s (route, name)).rows defaultKeyName).isNone := by
    rw [Option.isNone_iff_eq_none, Option.eq_none_iff_forall_ne_some]
    constructor
    · exact fun apart raw stored => apart (defaultKeyName, raw) (mem_range.mpr stored) rfl
    · rintro absent ⟨_, raw⟩ mem rfl
      exact absent raw (mem_range.mp mem)
  have listed := names.filterMap fun key => (keyring s (route, name) key).bind (current now)
  rw [ownKey, signingKeys, run_range_bind, rows]
  simp only [unlisted]
  split
  · exact ⟨_, rfl, (listed.append_right _).trans List.perm_append_comm⟩
  · exact ⟨_, rfl, listed⟩

theorem run_parseActorRecord {Key : Type} (parse : GoString → Option Key)
    (present : (s.get route.org route.segment name).isSome) :
    ∃ parsed, (parseActorRecord parse now route.org route.segment name).run exec s =
      (.ok parsed, s) ∧
      parsed.pubs.Perm ((ownKey s route name ++ (s.keys route.org (keysColl route.segment name)).filterMap fun key =>
        (keyring s (route, name) key).bind (current now)).filterMap parse) := by
  obtain ⟨raw, record⟩ := Option.isSome_iff_exists.mp present
  obtain ⟨obj, reads⟩ := (all (route, name)).record raw record
  obtain ⟨rec, decoded, key⟩ := Option.map_eq_some_iff.mp reads.key
  have same : rec.publicKey = (accounts s (route, name)).publicKey := by
    rw [key, Account.publicKey, show (accounts s (route, name)).record = some raw from record,
      decodeStored, Option.bind_some, reads.decoded]
    rfl
  obtain ⟨pems, ran, perm⟩ := @run_signingKeys _ route name _ now all
  rw [parseActorRecord, run_get_bind, record]
  simp only [decoded, same]
  rw [run_bind_of_ok ran]
  have pubs := perm.filterMap parse
  revert pubs
  cases pems.filterMap parse with
  | _ => exact fun pubs => ⟨_, rfl, pubs⟩

end Signing

/-- In every state that plain records lead to, an actor signs with the keys listed as not expired, and
a default row has the key of the record. -/
theorem signing_keys_are_listed [Unicode] [Clock] {enforceACL : Bool}
    (reached : Serves enforceACL (fun request _ => GeneratesKeys request ∧ WritesPlainly request) s)
    (route : ActorRoute) (name : GoString) :
    (Resolves s route → (s.get route.org route.segment name).isSome →
      ∀ (now : Int) (r : Request) (Key : Type) (parse : GoString → Option Key),
        ∃ (listed : List (GoString × Bool)) (parsed : Parsed Key),
        (listKeys r route name now).run exec s = (.ok (.json 200 (.document (.array (listed.map fun key =>
          keyListItem (objectURL r route.org route.segment name ++ lit "/keys") key.1 key.2)))), s) ∧
        (parseActorRecord parse now route.org route.segment name).run exec s = (.ok parsed, s) ∧
        parsed.pubs.Perm (((listed.filter fun key => !key.2).map fun key =>
          shownPublicKey s route name key.1).filterMap parse)) ∧
    ∀ row, s.get route.org (keysColl route.segment name) defaultKeyName = some row →
      ∃ record, s.get route.org route.segment name = some record ∧
        str (field (decodeStored (some row)) (lit "public_key")) =
          str (field (decodeStored (some record)) (lit "public_key")) := by
  have all : AllAccounts InStep s :=
    Session.invariant reached (fun _ => inStep_gone) fun request _ reached admitted all =>
    all.served (placed_of_serves reached) (fun who => (all who).shaped) fun _ _ effect =>
      effect.inStep all admitted.1 admitted.2
  have regular := regular_of_serves reached
  constructor
  · intro resolves present now r Key parse
    obtain ⟨listed, lists, shown⟩ := @run_listedKeys _ _ _ _ now regular resolves present
    obtain ⟨parsed, parses, perm⟩ := @run_parseActorRecord _ _ _ _ now all _ parse present
    refine ⟨listed, parsed, run_bind_of_ok lists _, parses, ?_⟩
    rw [shown]
    exact perm
  · intro row stored
    obtain ⟨present, pub, exp, rfl, -⟩ := (all (route, name)).row _ row stored
    obtain ⟨record, found⟩ := Option.isSome_iff_exists.mp present
    have same := (all (route, name)).default pub exp stored
    refine ⟨record, found, ?_⟩
    rw [Account.publicKey, found] at same
    rw [same]
    rfl

def addsLaptop : ApiRequest := .actor .users (.key leaver (.add keyedEnv namesLaptop))

def twoKeys [Unicode] : Store :=
  serveAll true [createsKeyed none leaver, addsLaptop] Store.newMemoryBackend

theorem bob_signs_with_listed_keys :
    letI : Unicode := ⟨id⟩
    letI : Clock := ⟨fun _ => none⟩
    ∃ (listed : List (GoString × Bool)) (parsed : Parsed GoString),
      (listKeys namesLaptop .users leaver 0).run exec twoKeys = (.ok (.json 200 (.document (.array (listed.map fun key =>
        keyListItem (objectURL namesLaptop global users leaver ++ lit "/keys") key.1 key.2)))), twoKeys) ∧
      (parseActorRecord some 0 global users leaver).run exec twoKeys = (.ok parsed, twoKeys) ∧
      parsed.pubs.Perm (((listed.filter fun key => !key.2).map fun key =>
        shownPublicKey twoKeys .users leaver key.1).filterMap some) := by
  let _ : Unicode := ⟨id⟩
  let _ : Clock := ⟨fun _ => none⟩
  have generated : keyedEnv.publicKey ≠ [] := by decide
  have reached : Serves true (fun request _ => GeneratesKeys request ∧ WritesPlainly request) twoKeys := by
    refine Serves.all .start ?_
    simp only [List.forall_mem_cons]
    refine ⟨fun _ => ⟨trivial, fun body decoded => ?_⟩, fun _ => ⟨generated, trivial⟩, by simp⟩
    obtain rfl : _ = body := Option.some.inj decoded
    exact plainRecord_canonicalMembers recordLike_plainRecord.empty (by decide)
  exact (signing_keys_are_listed reached .users leaver).1 trivial
    (by decide +kernel) 0 namesLaptop GoString some

theorem other_spelling_signs_unlisted :
    letI : Unicode := ⟨id⟩
    letI : Clock := ⟨fun _ => none⟩
    ∃ s, Serves true (fun request _ => GeneratesKeys request) s ∧
      ((listedKeys .users leaver 0).run exec s).1.toOption = some [] ∧
      ((parseActorRecord some 0 global users leaver).run exec s).1.toOption.map Parsed.pubs = some [lit "key"] := by
  let _ : Unicode := ⟨id⟩
  let _ : Clock := ⟨fun _ => none⟩
  let spelled : ApiRequest := .actor .users (.create keyedEnv (creates [(lit "name", .string leaver),
    (lit "display_name", .string leaver), (lit "external_authentication_uid", .string leaver),
    (lit "Public_Key", .string (lit "key"))]))
  refine ⟨serveAll true [spelled] Store.newMemoryBackend, Serves.all .start ?_, ?_⟩
  · simp [spelled, GeneratesKeys]
  · decide +kernel

/-! ## Stored keys can be parsed -/

open Std.ExtTreeMap (getElem?_erase getElem?_insert_self)

variable {valid : GoString → Bool} {other : Object} {v : Value} {old : StoredKey} {request : KeyWrite}

def UsableKeys (valid : GoString → Bool) (raw : Raw) : Prop :=
  ∀ members v, raw = .document (.object members) →
  (lit "public_key", v) ∈ members → ∃ text, v = .string text ∧ valid text

structure KeysPass (valid : GoString → Bool) (obj : Object) : Prop where
  own : ∀ v, obj[lit "public_key"]? = some v → ∃ text, v = .string text ∧ valid text
  nested : ∀ v ck, obj[lit "chef_key"]? = some v → asMap v = some ck →
    str (field ck (lit "public_key")) ≠ [] → valid (str (field ck (lit "public_key")))

structure Supplies (valid : GoString → Bool) (env : Env) : Prop where
  check : validPublicKey env = valid
  generated : valid env.publicKey

theorem KeysPass.of_eq (pass : KeysPass valid other)
    (own : obj[lit "public_key"]? = other[lit "public_key"]?)
    (nested : obj[lit "chef_key"]? = other[lit "chef_key"]?) :
    KeysPass valid obj :=
  ⟨own ▸ pass.own, nested ▸ pass.nested⟩

theorem keysPass_empty : KeysPass valid ∅ := ⟨by simp, by simp⟩

theorem KeysPass.erase (pass : KeysPass valid obj) (fieldName : GoString) :
    KeysPass valid (obj.erase fieldName) := by
  refine ⟨fun v found => ?_, fun v ck found => ?_⟩
  · rw [getElem?_erase] at found
    split_ifs at found
    exact pass.own v found
  · rw [getElem?_erase] at found
    split_ifs at found
    exact pass.nested v ck found

theorem KeysPass.deleteField {obj : Option Object} {fieldName : GoString}
    (pass : KeysPass valid (contents obj)) :
    KeysPass valid (contents (deleteField fieldName obj)) := by
  cases obj with
  | none => exact pass
  | some obj => exact pass.erase fieldName

theorem KeysPass.insert (pass : KeysPass valid obj) (passes : valid pub) :
    KeysPass valid (obj.insert (lit "public_key") (.string pub)) := by
  refine ⟨fun v found => ?_, fun v ck found => ?_⟩
  · rw [getElem?_insert_self] at found
    exact ⟨pub, (Option.some.inj found).symm, passes⟩
  · rw [Std.ExtTreeMap.getElem?_insert, if_neg (by decide)] at found
    exact pass.nested v ck found

theorem KeysPass.withKey (pass : KeysPass valid obj)
    (passes : pub ≠ [] → valid pub) : KeysPass valid (withKey pub obj) := by
  unfold Api.withKey
  dsimp only
  split_ifs with given
  · exact ((pass.erase _).erase _).insert (passes given)
  · exact (pass.erase _).erase _

theorem KeysPass.field (pass : KeysPass valid obj)
    (given : str (field obj (lit "public_key")) ≠ []) :
    valid (str (Json.field obj (lit "public_key"))) := by
  rw [field_eq] at given ⊢
  cases found : obj[lit "public_key"]? with
  | none => simp [found, str] at given
  | some v =>
    obtain ⟨text, rfl, passes⟩ := pass.own v found
    exact passes

theorem KeysPass.body (pass : KeysPass valid obj) (given : bodyPublicKey obj ≠ []) :
    valid (bodyPublicKey obj) := by
  unfold bodyPublicKey at given ⊢
  split_ifs with top
  · exact pass.field top
  · rw [if_neg top] at given
    rw [field_eq] at given ⊢
    cases found : obj[lit "chef_key"]? with
    | none => simp [found, asMap] at given
    | some v =>
      simp only [found, Option.getD_some] at given ⊢
      cases isMap : asMap v with
      | none => simp [isMap] at given
      | some ck =>
        simp only [isMap] at given ⊢
        exact pass.nested v ck found isMap given

theorem usableKeys_mustEncode {obj : Option Object} (pass : KeysPass valid (contents obj)) :
    UsableKeys valid (mustEncode obj) := by
  intro members v same mem
  cases obj with
  | none => cases same
  | some obj =>
    cases same
    exact pass.own v (Std.ExtTreeMap.mem_toList_iff_getElem?_eq_some.mp mem)

theorem KeysPass.recordWith {actor : Option Object} (pass : KeysPass valid (contents actor))
    (passes : pub ≠ [] → valid pub) :
    KeysPass valid (contents (recordWith pub actor)) := by
  unfold Api.recordWith
  cases actor with
  | none => split <;> exact keysPass_empty
  | some obj =>
    split
    · exact pass.erase _
    · next given => exact pass.insert (passes given)

structure Usable (valid : GoString → Bool) (a : Account) : Prop where
  record : ∀ raw, a.record = some raw → UsableKeys valid raw ∧ KeysPass valid (decodeStored (some raw))
  row : ∀ key raw, a.rows key = some raw → ∃ pub exp, raw = keyRow key pub exp ∧ valid pub

theorem usable_gone : Usable valid .gone := ⟨nofun, nofun⟩

theorem Usable.putRow (usable : Usable valid a) (passes : valid pub) :
    Usable valid (a.putRow key pub exp) := by
  refine ⟨usable.record, fun other raw found => ?_⟩
  obtain ⟨rfl, rfl⟩ | before := Account.row_of_putRow found
  · exact ⟨pub, exp, rfl, passes⟩
  · exact usable.row other raw before

theorem Usable.dropRow (usable : Usable valid a) : Usable valid (a.dropRow key) :=
  ⟨usable.record, fun other raw found => usable.row other raw (Account.row_of_dropRow found)⟩

theorem Usable.putRecord {obj : Option Object} (usable : Usable valid a)
    (settled : SettledMap (contents obj))
    (pass : KeysPass valid (contents obj)) : Usable valid (a.putRecord (mustEncode obj)) := by
  refine ⟨fun raw stored => ?_, usable.row⟩
  cases stored
  refine ⟨usableKeys_mustEncode pass, ?_⟩
  rwa [decodeStored, Option.bind_some, unmarshalMap_mustEncode settled]

theorem str_eq_nil_of_not_given (none : isGiven v = false) : str v = [] := by
  cases v with
  | string text => simpa [isGiven, str] using none
  | _ => rfl

section Keys

variable (supplies : Supplies valid env) {body : Option Object} (given : KeyBody env r body)
include supplies given

theorem KeyBody.passes (named : str (field (contents body) (lit "public_key")) ≠ []) :
    valid (str (field (contents body) (lit "public_key"))) := by
  have isGiven : isGiven (field (contents body) (lit "public_key")) = true := by
    by_contra none
    exact named (str_eq_nil_of_not_given (Bool.eq_false_iff.mpr none))
  by_contra invalid
  have accepted := given.accepted
  rw [validateKeyFields, isGiven, supplies.check, Bool.eq_false_iff.mpr invalid] at accepted
  split at accepted
  · cases accepted
  · cases accepted

theorem KeyBody.passes_added :
    valid (orElse (str (field (contents body) (lit "public_key"))) env.publicKey) := by
  unfold orElse
  split_ifs with none
  · exact supplies.generated
  · exact given.passes supplies none

theorem KeyBody.passes_amended (passes : valid old.publicKey) :
    valid (amendedKey env (contents body) old).publicKey := by
  have asked (text : GoString) (ok : text ≠ [] → valid text) :
      valid (orElse text old.publicKey) := by
    unfold orElse
    split_ifs with none
    · exact passes
    · exact ok none
  refine asked _ ?_
  unfold givenPublicKey
  split_ifs
  · exact fun _ => supplies.generated
  · exact given.passes supplies

end Keys

theorem Usable.keysPass (usable : Usable valid (accounts s (route, name)))
    (loads : Loads s route name actor) :
    KeysPass valid (contents actor) := by
  obtain ⟨raw, stored, decoded⟩ := loads
  have pass := (usable.record raw stored).2
  rwa [decodeStored, Option.bind_some, decoded] at pass

theorem Held.passes (usable : Usable valid a) (pass : KeysPass valid (contents actor))
    (held : Held a actor key old) : valid old.publicKey := by
  cases held with
  | row stored read =>
    obtain ⟨pub, exp, rfl, passes⟩ := usable.row key _ stored
    rw [decode_keyRow] at read
    cases read
    exact passes
  | own absent keyed => exact pass.field keyed

def KeySupplies (valid : GoString → Bool) : KeyWrite → Prop
  | .add env _ => Supplies valid env
  | .put env _ _ => Supplies valid env
  | .delete _ => True

theorem KeyEffect.usable {torn done : Account} (usable : Usable valid (accounts s (route, name)))
    (loads : Loads s route name actor) (supplies : KeySupplies valid request)
    (effect : KeyEffect (accounts s (route, name)) actor request torn done) :
    Usable valid torn ∧ Usable valid done := by
  have pass := usable.keysPass loads
  have recorded {a : Account} {pub : GoString} (usable : Usable valid a) (passes : pub ≠ [] → valid pub) :
      Usable valid (a.putRecord (mustEncode (recordWith pub actor))) :=
    usable.putRecord (settledMap_recordWith loads.settled) (pass.recordWith passes)
  have followed {key pub exp : GoString} (passes : valid pub) : Usable valid ((accounts s (route, name)).putRow key pub exp) ∧
      Usable valid (((accounts s (route, name)).putRow key pub exp).mirror key (mustEncode (recordWith pub actor))) :=
    ⟨usable.putRow passes, Account.mirror_of (usable.putRow passes) (recorded (usable.putRow passes) fun _ => passes)⟩
  cases effect with
  | added given named isPub => exact followed (isPub ▸ given.passes_added supplies)
  | amended given held named amends => exact followed (amends ▸ given.passes_amended supplies (held.passes usable pass))
  | renamed given stored held named apart amends =>
    have passes := given.passes_amended supplies (held.passes usable pass)
    subst amends
    refine ⟨(usable.putRow passes).dropRow,
      Account.rename_of (usable.putRow passes).dropRow fun pub either => ?_⟩
    refine recorded (usable.putRow passes).dropRow fun given => ?_
    exact either.elim (fun none => absurd none given) fun same => same ▸ passes
  | dropped => exact ⟨usable, usable.dropRow⟩
  | bared => exact ⟨usable, recorded usable.dropRow fun given => absurd rfl given⟩

theorem bodyPublicKey_congr (own : obj[lit "public_key"]? = other[lit "public_key"]?)
    (nested : obj[lit "chef_key"]? = other[lit "chef_key"]?) :
    bodyPublicKey obj = bodyPublicKey other := by
  simp only [bodyPublicKey, field_eq, own, nested]

theorem bodyPublicKey_of_member (found : obj[lit "public_key"]? = some v) (given : str v ≠ []) :
    bodyPublicKey obj ≠ [] := by
  rw [bodyPublicKey, field_eq, found, Option.getD_some, if_pos given]
  exact given

theorem keysPass_created [Unicode] {segment : GoString} {body : Object}
    (supplies : Supplies valid env)
    (accepted : bodyRefusal env r segment body = none)
    (named : 1 ≤ r.apiVersion → ∀ v, body[lit "public_key"]? = some v → str v ≠ []) :
    KeysPass valid (createdRecord env r segment body) := by
  have unlowered {fieldName : GoString} (email : lit "email" ≠ fieldName) :
      (lowered segment body)[fieldName]? = body[fieldName]? := by
    unfold lowered
    split_ifs
    · exact getElem?_lowerEmail email body
    · rfl
  have unflagged {fieldName : GoString} (flag : lit "create_key" ≠ fieldName) (email : lit "email" ≠ fieldName) :
      ((lowered segment body).erase (lit "create_key"))[fieldName]? = body[fieldName]? := by
    rw [getElem?_erase, if_neg (by simpa using flag), unlowered email]
  have same := bodyPublicKey_congr (unflagged (by decide) (by decide)) (unflagged (by decide) (by decide))
  have checked (given : bodyPublicKey body ≠ []) : valid (bodyPublicKey body) := by
    by_contra invalid
    simp only [bodyRefusal, Option.orElse_eq_none, supplies.check,
      bodyPublicKey_congr (unlowered (by decide)) (unlowered (by decide))] at accepted
    have refused := accepted.2.2.1
    rw [if_pos ⟨given, by simpa using invalid⟩] at refused
    cases refused
  refine ⟨fun v found => ?_, fun v ck found => ?_⟩
  · rw [createdRecord, getElem?_withoutPassword (by decide), getElem?_erase, if_neg (by decide),
      getElem?_erase, if_neg (by decide), withRecordKey, same] at found
    split_ifs at found with given generate
    · rw [getElem?_insert_self] at found
      exact ⟨_, (Option.some.inj found).symm, checked given⟩
    · rw [getElem?_insert_self] at found
      exact ⟨_, (Option.some.inj found).symm, supplies.generated⟩
    · -- From API v1 a field that holds no key is left as it is.
      rw [unflagged (by decide) (by decide)] at found
      have v1 : 1 ≤ r.apiVersion := by
        by_contra v0
        simp [generatesKey, same, not_not.mp given, not_le.mp v0] at generate
      exact absurd (bodyPublicKey_of_member found (named v1 v found)) given
  · rw [createdRecord, getElem?_withoutPassword (by decide), getElem?_erase, if_neg (by decide),
      getElem?_erase, if_pos (by decide)] at found
    cases found

theorem KeysPass.merge {stored body : Object} (old : KeysPass valid stored)
    (new : KeysPass valid body) :
    KeysPass valid (mergeUser stored body) := by
  have source {fieldName : GoString} {v : Value} (found : (mergeUser stored body)[fieldName]? = some v) :
      body[fieldName]? = some v ∨ stored[fieldName]? = some v := by
    rw [getElem?_mergeUser, kept] at found
    cases given : body[fieldName]? with
    | none =>
      rw [given] at found
      exact .inr found
    | some w =>
      rw [given] at found
      cases w with
      | null => cases found
      | _ => exact .inl found
  refine ⟨fun v found => ?_, fun v ck found => ?_⟩
  · exact (source found).elim (new.own v) (old.own v)
  · exact (source found).elim (new.nested v ck) (old.nested v ck)

theorem keysPass_updateFields {body : Option Object}
    (noKeys : 1 ≤ r.apiVersion → updateKeyFieldsError (contents body) = none)
    (given : r.apiVersion < 1 → KeysPass valid (contents body)) :
    KeysPass valid (contents (updateFields r body)) := by
  by_cases v1 : 1 ≤ r.apiVersion
  · have accepted := noKeys v1
    unfold updateKeyFieldsError at accepted
    split_ifs at accepted with _ keys
    rw [not_or] at keys
    refine ⟨fun v found => ?_, fun v ck found => ?_⟩
    · rw [getElem?_updateFields (by decide) (by decide),
        Std.ExtTreeMap.getElem?_eq_none keys.2] at found
      cases found
    · rw [updateFields, if_pos v1, getElem?_deleteField (by decide)] at found
      cases body <;> simp [contents, deleteField] at found
  · rw [updateFields, if_neg v1]
    exact (given (not_le.mp v1)).deleteField

theorem keysPass_updated [Unicode] {body obj : Option Object} {given : GoString}
    (supplies : Supplies valid env)
    (updates : UpdatesRecord s route name env r body given obj)
    (stored : KeysPass valid (decodeStored (s.get route.org route.segment name)))
    (keys : r.apiVersion < 1 → KeysPass valid (contents body)) :
    (given ≠ [] → valid given) ∧ KeysPass valid (contents obj) := by
  have fields := keysPass_updateFields updates.keyFields keys
  have merged : KeysPass valid (contents (mergedRecord route.segment (decodeStored (s.get route.org route.segment name))
      (updateFields r body))) := by
    unfold mergedRecord
    split_ifs
    · exact fields
    · exact stored.merge (fields.of_eq (getElem?_lowerEmail (by decide) _) (getElem?_lowerEmail (by decide) _))
  have passes {regenerate : Bool} {m : Object} (pass : KeysPass valid m) (new : givenKey env regenerate m ≠ []) :
      valid (givenKey env regenerate m) := by
    unfold givenKey at new ⊢
    split_ifs at new ⊢
    · exact supplies.generated
    · exact pass.body new
  refine ⟨fun new => ?_, ?_⟩
  · rw [updates.rotates] at new ⊢
    exact passes merged.deleteField new
  · rw [updates.made, updatedRecord]
    cases made : mergedRecord route.segment (decodeStored (s.get route.org route.segment name)) (updateFields r body) with
    | none => exact keysPass_empty
    | some m =>
      rw [made] at merged
      have keyed : KeysPass valid (withKey (updatedKey env (regenerates r m)
          (decodeStored (s.get route.org route.segment name)) m) m) := by
        refine merged.withKey fun present => ?_
        unfold updatedKey at present ⊢
        dsimp only at present ⊢
        split_ifs at present ⊢ with new
        · exact passes (merged.erase _) new
        · exact stored.field present
      refine KeysPass.of_eq ?_ (getElem?_withoutPassword
        (by decide) _) (getElem?_withoutPassword (by decide) _)
      split_ifs
      · exact keyed.of_eq (getElem?_withPrivilege_of_ne (by decide) _ _) (getElem?_withPrivilege_of_ne (by decide) _ _)
      · exact keyed

def UsesCheck (valid : GoString → Bool) : ApiRequest → Prop
  | .actor _ (.create env _) => Supplies valid env
  | .actor _ (.put env _ _) => Supplies valid env
  | .actor _ (.key _ (.add env _)) => Supplies valid env
  | .actor _ (.key _ (.put env _ _)) => Supplies valid env
  | .organization (.create env _) => Supplies valid env
  | _ => True

/-- The bodies that are not checked: the public key of a creation from API v1 is no empty string and no
other value, and the keys of an update at API v0 pass the check. -/
def GivesKeys (valid : GoString → Bool) : ApiRequest → Prop
  | .actor _ (.create _ r) => 1 ≤ r.apiVersion → ∀ body v, unmarshalMap r.body = some (some body) →
      body[lit "public_key"]? = some v → str v ≠ []
  | .actor _ (.put _ r _) => r.apiVersion < 1 → ∀ body, unmarshalMap r.body = some body → KeysPass valid (contents body)
  | _ => True

theorem usable_validator (supplies : Supplies valid env) :
    Usable valid (Account.gone.putRecord (validatorDoc env name)) := by
  refine ⟨fun raw stored => ?_, nofun⟩
  cases stored
  refine ⟨?_, ?_, ?_⟩
  · intro members v same mem
    cases same
    have apart : lit "public_key" ∉ [lit "name", lit "clientname", lit "validator"] := by decide
    simp only [List.mem_cons, Prod.mk.injEq, List.not_mem_nil, or_false, not_or] at mem apart
    obtain ⟨named, -⟩ | ⟨named, -⟩ | ⟨named, -⟩ | ⟨-, rfl⟩ := mem
    · exact absurd named apart.1
    · exact absurd named apart.2.1
    · exact absurd named apart.2.2
    · exact ⟨_, rfl, supplies.generated⟩
  · intro v found
    have own : (decodeStored (some (validatorDoc env name)))[lit "public_key"]? =
        some (.string env.publicKey) := rfl
    rw [own] at found
    exact ⟨_, (Option.some.inj found).symm, supplies.generated⟩
  · intro v ck found
    have nested : (decodeStored (some (validatorDoc env name)))[lit "chef_key"]? = none := rfl
    rw [nested] at found
    cases found

theorem keySupplies_of_usesCheck (check : UsesCheck valid (.actor route (.key name request))) :
    KeySupplies valid request := by
  cases request <;> exact check

theorem AccountEffect.usable [Unicode] {request : ApiRequest} {who : ActorRoute × GoString}
    (all : AllAccounts (Usable valid) s)
    (check : UsesCheck valid request) (gives : GivesKeys valid request)
    (effect : AccountEffect s request who a) :
    Usable valid a := by
  cases effect with
  | created registers =>
    obtain ⟨_, source, derived⟩ := registers.derived
    have settled := derived _ recordLike_settledMap (by simp [settledMap_contents source])
    obtain ⟨body, decoded, accepted, -, rfl⟩ := registers.made
    exact (all _).putRecord settled
      (keysPass_created check accepted fun v1 v => gives v1 body v decoded)
  | @updated route _ _ name body given obj _ decoded updates rotates =>
    have stored : KeysPass valid (decodeStored (s.get route.org route.segment name)) := by
      cases found : s.get route.org route.segment name with
      | none => exact keysPass_empty
      | some raw => exact ((all (route, name)).record raw found).2
    obtain ⟨passes, pass⟩ := keysPass_updated check updates stored fun v0 => gives v0 body decoded
    have settled := updates.derived _ recordLike_settledMap (by simp [settledMap_decodeStored, settledMap_contents decoded])
    cases rotates with
    | same => exact (all _).putRecord settled pass
    | row _ _ new => exact ((all _).putRow (passes new)).putRecord settled pass
  | key loads effect => exact (effect.usable (all _) loads (keySupplies_of_usesCheck check)).2
  | torn loads effect => exact (effect.usable (all _) loads (keySupplies_of_usesCheck check)).1
  | deleted | removed => exact usable_gone
  | validator => exact usable_validator check

theorem usableKeys_keyRow (passes : valid pub) : UsableKeys valid (keyRow key pub exp) := by
  refine @usableKeys_mustEncode _ (some (Std.ExtTreeMap.ofList (keyFields key pub exp)))
    ⟨fun v found => ?_, fun v ck found => ?_⟩
  · have own : (Std.ExtTreeMap.ofList (keyFields key pub exp) : Object)[lit "public_key"]? =
        some (.string pub) := rfl
    exact ⟨pub, Option.some.inj (found.symm.trans own), passes⟩
  · have nested : (Std.ExtTreeMap.ofList (keyFields key pub exp) : Object)[lit "chef_key"]? = none := rfl
    cases found.symm.trans nested

theorem signingKeys_pass [Clock] {now : Int} {own : GoString}
    (usable : Usable valid (accounts s (route, name)))
    (passes : own ≠ [] → valid own) :
    ∃ pems, (signingKeys route.org route.segment name own now).run exec s = (.ok pems, s) ∧
      ∀ pem ∈ pems, valid pem := by
  have rows (pem : GoString) (mem : pem ∈ (s.range route.org (keysColl route.segment name)).filterMap fun row =>
      signingKey now row.2) : valid pem := by
    obtain ⟨⟨key, raw⟩, listed, signs⟩ := List.mem_filterMap.mp mem
    obtain ⟨pub, exp, rfl, passes⟩ := usable.row key raw (mem_range.mp listed)
    simp only [signingKey, decode_keyRow] at signs
    split_ifs at signs
    cases signs
    exact passes
  rw [signingKeys, run_range_bind]
  split_ifs with alone
  · refine ⟨_, rfl, fun pem mem => ?_⟩
    rcases List.mem_append.mp mem with listed | only
    · exact rows pem listed
    · rw [List.mem_singleton.mp only]
      exact passes alone.2
  · exact ⟨_, rfl, rows⟩

/-- Every stored public key passes the check, and so does every key the authentication layer tries when
it reads the record as the handlers do. -/
theorem stored_keys_pass [Unicode] [Clock] {enforceACL : Bool}
    (reached : Serves enforceACL (fun request _ => UsesCheck valid request ∧ GivesKeys valid request) s)
    (route : ActorRoute) (name : GoString) :
    (∀ raw, s.get route.org route.segment name = some raw → UsableKeys valid raw) ∧
    (∀ key raw, s.get route.org (keysColl route.segment name) key = some raw → UsableKeys valid raw) ∧
    ∀ raw obj now, s.get route.org route.segment name = some raw → ReadsAlike raw obj →
      ∃ rec pems, decodeActorRecord raw = some rec ∧
        (signingKeys route.org route.segment name rec.publicKey now).run exec s = (.ok pems, s) ∧ ∀ pem ∈ pems, valid pem := by
  have all : AllAccounts (Usable valid) s :=
    Session.invariant reached (fun _ => usable_gone) fun request _ reached ⟨check, gives⟩ all =>
      all.served (placed_of_serves reached) (fun who => (regular_of_serves reached who).shaped) fun _ _ effect =>
        effect.usable all check gives
  have usable := all (route, name)
  refine ⟨fun raw stored => (usable.record raw stored).1, fun key raw stored => ?_,
    fun raw obj now stored reads => ?_⟩
  · obtain ⟨pub, exp, rfl, passes⟩ := usable.row key raw stored
    exact usableKeys_keyRow passes
  · obtain ⟨rec, decoded, same⟩ := Option.map_eq_some_iff.mp reads.key
    have pass : KeysPass valid obj := by
      have pass := (usable.record raw stored).2
      rwa [decodeStored, Option.bind_some, reads.decoded] at pass
    obtain ⟨pems, ran, passes⟩ :=
      @signingKeys_pass _ _ _ _ _ now rec.publicKey usable fun given => by
      rw [same] at given ⊢
      exact pass.field given
    exact ⟨rec, pems, decoded, ran, passes⟩

def pemEnv : Env := ⟨lit "-----BEGIN PUBLIC KEY", lit "private", [], id, fun _ => true⟩

theorem supplies_pemEnv : Supplies (validPublicKey pemEnv) pemEnv := ⟨rfl, by decide⟩

def registersWith (field : GoString × Value) : ApiRequest :=
  .actor .users (.create pemEnv (creates [(lit "name", .string leaver), (lit "display_name", .string leaver),
    (lit "external_authentication_uid", .string leaver), field]))

def givesGarbage : ApiRequest :=
  .actor .users (.put pemEnv { creates [(lit "display_name", .string leaver),
  (lit "public_key", .string (lit "garbage"))] with apiVersion := 0 } leaver)

theorem registered_key_passes : letI : Unicode := ⟨id⟩
    ∃ raw, (serveAll true [registersWith (lit "create_key", .bool true)] Store.newMemoryBackend).get global users leaver = some raw ∧
      UsableKeys (validPublicKey pemEnv) raw := by
  let _ : Unicode := ⟨id⟩
  let _ : Clock := ⟨fun _ => none⟩
  have reached : Serves true (fun request _ => UsesCheck (validPublicKey pemEnv) request ∧ GivesKeys (validPublicKey pemEnv) request)
      (serveAll true [registersWith (lit "create_key", .bool true)] Store.newMemoryBackend) := by
    refine Serves.all .start fun request mem _ => ?_
    obtain rfl := List.mem_singleton.mp mem
    refine ⟨supplies_pemEnv, fun _ body v decoded found => ?_⟩
    cases decoded
    cases found
  have registered : ((serveAll true [registersWith (lit "create_key", .bool true)] Store.newMemoryBackend).get global users leaver).isSome := by
    decide +kernel
  obtain ⟨raw, stored⟩ := Option.isSome_iff_exists.mp registered
  exact ⟨raw, stored, (stored_keys_pass reached .users leaver).1 raw stored⟩

def hasUnusable (valid : GoString → Bool) : Raw → Bool
  | .document (.object members) => members.any fun member => member.1 = lit "public_key" && !valid (str member.2)
  | _ => false

theorem not_usableKeys {raw : Raw} (unusable : hasUnusable valid raw) : ¬ UsableKeys valid raw := by
  intro usable
  unfold hasUnusable at unusable
  split at unusable
  · next members =>
    obtain ⟨⟨name, v⟩, mem, bad⟩ := List.any_eq_true.mp unusable
    simp only [Bool.and_eq_true, decide_eq_true_eq] at bad
    obtain ⟨rfl, bad⟩ := bad
    obtain ⟨text, rfl, passes⟩ := usable members v rfl mem
    simp [str, passes] at bad
  · cases unusable

theorem any_stored {stored : Option Raw} {bad : Raw → Bool}
    (unusable : stored.any bad) : ∃ raw, stored = some raw ∧ bad raw := by
  cases stored with
  | none => cases unusable
  | some raw => exact ⟨raw, rfl, unusable⟩

theorem unchecked_key_stored : letI : Unicode := ⟨id⟩
    [[registersWith (lit "create_key", .bool true), givesGarbage], [registersWith (lit "public_key", .bool true)]].Forall fun requests =>
      ∃ s raw, Serves true (fun request _ => UsesCheck (validPublicKey pemEnv) request) s ∧
        s = serveAll true requests Store.newMemoryBackend ∧ s.get global users leaver = some raw ∧
        ¬ UsableKeys (validPublicKey pemEnv) raw := by
  let _ : Unicode := ⟨id⟩
  refine List.forall_iff_forall_mem.mpr fun requests mem => ?_
  have reached : Serves true (fun request _ => UsesCheck (validPublicKey pemEnv) request)
      (serveAll true requests Store.newMemoryBackend) := by
    refine Serves.all .start ?_
    simp only [List.mem_cons, List.not_mem_nil, or_false] at mem
    rcases mem with rfl | rfl <;> simp [registersWith, givesGarbage, UsesCheck, supplies_pemEnv]
  have unusable : ((serveAll true requests Store.newMemoryBackend).get global users leaver).any
      (hasUnusable (validPublicKey pemEnv)) := by
    simp only [List.mem_cons, List.not_mem_nil, or_false] at mem
    rcases mem with rfl | rfl <;> decide +kernel
  obtain ⟨raw, stored, bad⟩ := any_stored unusable
  exact ⟨_, raw, reached, rfl, stored, not_usableKeys bad⟩

end CincServer.Proof.Api
