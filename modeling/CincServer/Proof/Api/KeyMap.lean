import CincServer.Proof.Api.Accounts

/-!
# The keys of an actor as a map
-/

namespace CincServer.Proof.Api
open CincServer.Api CincServer.Json Proof.Decoding Go Lib Program
open Function (update update_self update_of_ne update_comm)

variable {s t : Store} {route : ActorRoute} {name key pub exp : GoString} {r : Request} {env : Env} {a : Account}
  {raw : Raw} {obj : Option Object} {new : GoString} {stored : StoredKey} {α : Type}
  {who : ActorRoute × GoString} {enforceACL : Bool}

theorem settledMap_contents (decoded : unmarshalMap raw = some obj) :
    SettledMap (contents obj) := by
  cases obj with
  | none => exact settledMap_empty
  | some obj => exact settledMap_of_unmarshalMap decoded

theorem settledMap_decodeStored (raw : Option Raw) : SettledMap (decodeStored raw) := by
  unfold decodeStored
  cases read : raw.bind unmarshalMap with
  | none => exact settledMap_empty
  | some obj =>
    obtain ⟨raw, -, decoded⟩ := Option.bind_eq_some_iff.mp read
    exact settledMap_contents decoded

theorem settled_string (text : GoString) : Settled (.string text) := ⟨rfl, rfl⟩

theorem recordLike_settledMap : RecordLike SettledMap where
  empty := settledMap_empty
  erase name settled other v found := by
    rw [Std.ExtTreeMap.getElem?_erase] at found
    split_ifs at found
    exact settled other v found
  text text _ settled := settled.insert _ (settled_string text)
  field settled source found := settled.insert _ (source _ _ found)

theorem unmarshalMap_mustEncode (settled : SettledMap (contents obj)) :
    unmarshalMap (mustEncode obj) = some obj := by
  cases obj with
  | none => rfl
  | some obj => exact settled.unmarshalMap_mustEncode

theorem settledMap_recordWith {actor : Option Object} (settled : SettledMap (contents actor)) :
    SettledMap (contents (recordWith pub actor)) := by
  unfold recordWith
  split
  · exact recordLike_settledMap.deleteField _ settled
  · cases actor with
    | none => exact settledMap_empty
    | some obj => exact settled.insert _ (settled_string pub)

structure Regular (a : Account) : Prop where
  row : ∀ key raw, a.rows key = some raw → ∃ pub exp, raw = keyRow key pub exp
  record : ∀ raw, a.record = some raw → ∃ obj, unmarshalMap raw = some obj

theorem regular_gone : Regular .gone := ⟨nofun, nofun⟩

theorem Regular.putRow (regular : Regular a) : Regular (a.putRow key pub exp) := by
  refine ⟨fun other raw found => ?_, regular.record⟩
  obtain ⟨rfl, rfl⟩ | before := Account.row_of_putRow found
  · exact ⟨pub, exp, rfl⟩
  · exact regular.row other raw before

theorem Regular.dropRow (regular : Regular a) : Regular (a.dropRow key) :=
  ⟨fun other raw found => regular.row other raw (Account.row_of_dropRow found), regular.record⟩

theorem Regular.putRecord (regular : Regular a) (decoded : unmarshalMap raw = some obj) :
    Regular (a.putRecord raw) :=
  ⟨regular.row, fun _ stored => Option.some.inj stored ▸ ⟨obj, decoded⟩⟩

section Actor

variable {actor : Option Object} (loads : Loads s route name actor)
include loads

theorem Loads.settled : SettledMap (contents actor) :=
  let ⟨_, _, decoded⟩ := loads
  settledMap_contents decoded

theorem Loads.readable (pub : GoString) :
    unmarshalMap (mustEncode (recordWith pub actor)) = some (recordWith pub actor) :=
  unmarshalMap_mustEncode (settledMap_recordWith loads.settled)

end Actor

theorem Regular.shaped (regular : Regular a) : DefaultShaped a := regular.row defaultKeyName

theorem KeyEffect.regular {actor : Option Object} {request : KeyWrite} {torn done : Account}
    (regular : Regular a)
    (loads : Loads s route name actor) (effect : KeyEffect a actor request torn done) :
    Regular torn ∧ Regular done := by
  cases effect with
  | added | amended => exact ⟨regular.putRow, Account.mirror_of regular.putRow (regular.putRow.putRecord (loads.readable _))⟩
  | renamed =>
    exact ⟨regular.putRow.dropRow, Account.rename_of regular.putRow.dropRow fun _ _ =>
      regular.putRow.dropRow.putRecord (loads.readable _)⟩
  | dropped => exact ⟨regular, regular.dropRow⟩
  | bared => exact ⟨regular, regular.dropRow.putRecord (loads.readable _)⟩

theorem AccountEffect.regular [Unicode] {request : ApiRequest} (all : AllAccounts Regular s)
    (effect : AccountEffect s request who a) : Regular a := by
  cases effect with
  | created registers =>
    obtain ⟨body, decoded, derived⟩ := registers.derived
    have settled := derived _ recordLike_settledMap (by simp [settledMap_contents decoded])
    exact (all _).putRecord (unmarshalMap_mustEncode settled)
  | updated decoded updates rotates =>
    have settled := updates.derived _ recordLike_settledMap (by simp [settledMap_decodeStored, settledMap_contents decoded])
    cases rotates with
    | same => exact (all _).putRecord (unmarshalMap_mustEncode settled)
    | row => exact (all _).putRow.putRecord (unmarshalMap_mustEncode settled)
  | key loads effect => exact (effect.regular (all _) loads).2
  | torn loads effect => exact (effect.regular (all _) loads).1
  | deleted | removed => exact regular_gone
  | validator => exact regular_gone.putRecord rfl

theorem regular_request [Unicode] (all : AllAccounts Regular s) (placed : Placed s)
    (request : ApiRequest) :
    Leads exec (AllAccounts Regular) (request.handler enforceACL) s fun _ => AllAccounts Regular :=
  all.served placed (fun who => (all who).shaped) fun _ _ effect => effect.regular all

theorem regular_of_serves [Unicode] {admitted : ApiRequest → Store → Prop}
    (reached : Serves enforceACL admitted s) : AllAccounts Regular s :=
  Session.invariant reached (fun _ => regular_gone) fun request _ reached _ all =>
    regular_request all (placed_of_serves reached) request

def Account.publicKey (a : Account) : GoString :=
  str (field (decodeStored a.record) (lit "public_key"))

@[simp] theorem Account.putRow_publicKey : (a.putRow key pub exp).publicKey = a.publicKey := rfl

@[simp] theorem Account.dropRow_publicKey : (a.dropRow key).publicKey = a.publicKey := rfl

def keyFrom (row : Option Raw) (key publicKey : GoString) : Option StoredKey :=
  match row with
  | some raw => unmarshalStruct storedKeyFields ⟨[], []⟩ raw
  | none => if key = defaultKeyName ∧ publicKey ≠ [] then some ⟨publicKey, infinity⟩ else none

def Account.keys (a : Account) (key : GoString) : Option StoredKey :=
  keyFrom (a.rows key) key a.publicKey

def keyring (s : Store) (who : ActorRoute × GoString) : GoString → Option StoredKey :=
  (accounts s who).keys

theorem keyFrom_other (plain : key ≠ defaultKeyName) : keyFrom none key pub = none := by
  simp [keyFrom, plain]

theorem keyFrom_bare : keyFrom none key [] = none := by simp [keyFrom]

theorem keys_putRow : (a.putRow key pub exp).keys = update a.keys key (some ⟨pub, exp⟩) := by
  funext other
  unfold Account.keys
  by_cases same : other = key
  · subst same
    simp [keyFrom, decode_keyRow]
  · simp [same]

theorem keys_dropRow (unnamed : key ≠ defaultKeyName ∨ a.publicKey = []) :
    (a.dropRow key).keys = update a.keys key none := by
  funext other
  unfold Account.keys
  by_cases same : other = key
  · subst same
    rcases unnamed with plain | bare
    · simp [keyFrom_other plain]
    · simp [bare, keyFrom_bare]
  · simp [same]

theorem keys_putRecord_of_ne (plain : key ≠ defaultKeyName) :
    (a.putRecord raw).keys key = a.keys key := by
  unfold Account.keys
  rw [Account.putRecord_rows]
  cases a.rows key with
  | none => rw [keyFrom_other plain, keyFrom_other plain]
  | some row => rfl

theorem keys_putRecord (stored : (a.rows defaultKeyName).isSome) :
    (a.putRecord raw).keys = a.keys := by
  obtain ⟨row, stored⟩ := Option.isSome_iff_exists.mp stored
  funext other
  by_cases same : other = defaultKeyName
  · subst same
    simp [Account.keys, stored, keyFrom]
  · exact keys_putRecord_of_ne same

theorem keys_bare (bare : (a.putRecord raw).publicKey = []) :
    ((a.dropRow defaultKeyName).putRecord raw).keys = update a.keys defaultKeyName none := by
  refine (@keys_dropRow _ (a.putRecord raw) (.inr bare)).trans ?_
  funext other
  by_cases same : other = defaultKeyName
  · rw [same, update_self, update_self]
  · rw [update_of_ne same, update_of_ne same, keys_putRecord_of_ne same]

theorem keys_mirror : ((a.putRow key pub exp).mirror key raw).keys =
    (a.putRow key pub exp).keys := by
  unfold Account.mirror
  split
  · next isDefault =>
    subst isDefault
    exact keys_putRecord (by simp)
  · rfl

theorem Loads.publicKey {actor : Option Object} (loads : Loads s route name actor) :
    (accounts s (route, name)).publicKey = actorKey actor := by
  obtain ⟨raw, stored, decoded⟩ := loads
  simp [Account.publicKey, accounts, decodeStored, stored, decoded, actorKey]

theorem Loads.bare {actor : Option Object} (loads : Loads s route name actor) :
    (a.putRecord (mustEncode (recordWith [] actor))).publicKey = [] := by
  have gone : field (contents (deleteField (lit "public_key") actor)) (lit "public_key") = .null := by
    cases actor with
    | none => rfl
    | some obj => simp [field, contents, deleteField]
  simp only [Account.publicKey, decodeStored, Account.putRecord_record, Option.bind_some,
    loads.readable]
  exact congrArg str gone

theorem keys_rename {actor : Option Object} (loads : Loads s route name actor)
    (apart : new ≠ key) : (a.rename key new stored actor).keys =
      update (update a.keys key none) new (some stored) := by
  unfold Account.rename
  dsimp only
  split
  · next isDefault =>
    subst isDefault
    rw [keys_bare loads.bare, keys_putRow, update_comm apart]
  · next plain =>
    have moved : ((a.putRow new stored.publicKey stored.expirationDate).dropRow key).keys =
        update (update a.keys key none) new (some stored) := by
      rw [keys_dropRow (.inl plain), keys_putRow, update_comm apart]
    unfold Account.mirror
    split
    · next isDefault =>
      rw [keys_putRecord (by simp [← isDefault, apart]), moved]
    · exact moved

def Binds (s t : Store) (who : ActorRoute × GoString) (keys : GoString → Option StoredKey) : Prop :=
  keyring t = update (keyring s) who keys

theorem Becomes.binds (changed : Becomes s t (route, name) a) : Binds s t (route, name) a.keys := by
  funext who
  unfold keyring
  rw [changed]
  by_cases same : who = (route, name)
  · rw [same, update_self, update_self]
  · rw [update_of_ne same, update_of_ne same]

theorem addKey_binds : Leads exec (fun _ => True) (addKey env r route name) s fun _ t => ∃ body key,
    unmarshalMap r.body = some body ∧ key = str (field (contents body) (lit "name")) ∧
    keyring s (route, name) key = none ∧
    Binds s t (route, name) (update (keyring s (route, name)) key
      (some ⟨orElse (str (field (contents body) (lit "public_key"))) env.publicKey,
        orElse (str (field (contents body) (lit "expiration_date"))) infinity⟩)) := by
  refine leads_addKey trivial fun actor torn done loads effect =>
    ⟨fun _ _ _ => trivial, fun t becomes => ?_⟩
  cases effect with
  | @added _ _ body key pub exp given named isPub isExp absent bare =>
    refine ⟨body, key, given.decoded, named, ?_, ?_⟩
    · unfold keyring Account.keys
      rw [absent, loads.publicKey]
      simpa [keyFrom] using bare
    · have bound := becomes.binds
      rwa [keys_mirror, keys_putRow, isPub, isExp] at bound

theorem deleteKey_binds (regular : AllAccounts Regular s) :
    Leads exec (fun _ => True) (deleteKey route name key) s fun _ t =>
      (keyring s (route, name) key).isSome ∧
      Binds s t (route, name) (update (keyring s (route, name)) key none) := by
  refine leads_deleteKey trivial fun actor torn done loads effect =>
    ⟨fun _ _ _ => trivial, fun t becomes => ?_⟩
  have bound := becomes.binds
  cases effect with
  | @dropped _ raw stored other =>
    obtain ⟨pub, exp, rfl⟩ := (regular _).row key raw stored
    refine ⟨by simp [keyring, Account.keys, keyFrom, stored, decode_keyRow], ?_⟩
    rw [not_and_or, not_not, ← loads.publicKey] at other
    rwa [keys_dropRow other] at bound
  | bared keyed =>
    rw [keys_bare loads.bare] at bound
    refine ⟨?_, bound⟩
    rw [keyring, Account.keys, loads.publicKey]
    cases found : (accounts s (route, name)).rows defaultKeyName with
    | none => simp [keyFrom, keyed]
    | some raw =>
      obtain ⟨pub, exp, rfl⟩ := (regular _).row defaultKeyName raw found
      rfl

theorem Held.keyring {actor : Option Object} {old : StoredKey} (loads : Loads s route name actor)
    (held : Held (accounts s (route, name)) actor key old) :
    keyring s (route, name) key = some old := by
  rw [Api.keyring, Account.keys, loads.publicKey]
  cases held with
  | row stored read => rwa [stored]
  | own absent keyed => simp [keyFrom, absent, keyed]

/-- The update addresses a default key that is not stored by another name. -/
def Misnames (s : Store) (route : ActorRoute) (name key : GoString) (body : Option Object) : Prop :=
  key = defaultKeyName ∧ (accounts s (route, name)).rows key = none ∧ amendedName (contents body) key ≠ key

structure Moves (s t : Store) (who : ActorRoute × GoString) (key new : GoString)
    (stored : StoredKey) : Prop where
  free : new ≠ key → keyring s who new = none
  bound : Binds s t who (update (update (keyring s who) key none) new (some stored))

theorem Moves.left (moves : Moves s t who key new stored) (apart : new ≠ key) :
    keyring t who key = none := by
  rw [moves.bound, update_self, update_of_ne apart.symm, update_self]

theorem putKey_moves :
    Leads exec (fun _ => True) (putKey env r route name key) s fun _ t => ∃ body old,
      unmarshalMap r.body = some body ∧ keyring s (route, name) key = some old ∧
      (Moves s t (route, name) key (amendedName (contents body) key) (amendedKey env (contents body) old) ↔
        ¬ Misnames s route name key body) := by
  refine leads_putKey trivial fun actor torn done loads effect =>
    ⟨fun _ _ _ => trivial, fun t becomes => ?_⟩
  have bound := becomes.binds
  cases effect with
  | @amended _ _ body _ old _ given held named amends =>
    subst amends
    rw [keys_mirror, keys_putRow] at bound
    refine ⟨body, old, given.decoded, held.keyring loads, fun moves misnames => ?_,
      fun proper => ?_⟩
    · -- The default key stays under its own name, whatever the body calls it.
      have gone := moves.left misnames.2.2
      rw [bound, update_self, update_self] at gone
      cases gone
    · have same : amendedName (contents body) key = key := by
        by_contra other
        cases held with
        | row stored => exact other (named (Option.isSome_of_eq_some stored))
        | own absent => exact proper ⟨rfl, absent, other⟩
      rw [same]
      exact ⟨fun other => absurd rfl other, by rwa [Function.update_idem]⟩
  | @renamed _ _ body _ new old _ given stored held named apart amends absent bare =>
    subst amends
    rw [keys_rename loads apart] at bound
    refine ⟨body, old, given.decoded, held.keyring loads, fun _ misnames => ?_, fun _ => ?_⟩
    · rw [misnames.2.1] at stored
      cases stored
    · rw [named]
      refine ⟨fun _ => ?_, bound⟩
      rw [keyring, Account.keys, absent, loads.publicKey]
      simpa [keyFrom] using bare

theorem run_scope_bind (resolves : Resolves s route) (f : Unit → Handler α) :
    (route.scope >>= f).run exec s = (f ()).run exec s := by
  cases route with
  | users => rfl
  | clients org => exact run_resolveOrg_bind resolves f

theorem run_loadActor_bind {actor : Option Object} (loads : Loads s route name actor)
    (f : Option Object → Handler α) :
    (loadActor route.org route.segment name >>= f).run exec s = (f actor).run exec s := by
  obtain ⟨raw, stored, decoded⟩ := loads
  have loaded : (loadActor route.org route.segment name).run exec s = (.ok actor, s) := by
    rw [loadActor, run_get_bind, stored]
    simp only [decoded]
    rfl
  exact run_bind_of_ok loaded f

structure ShowsKey (raw : Raw) (key : GoString) (bound : StoredKey) : Prop where
  name : field (decodeStored (some raw)) (lit "name") = .string key
  publicKey : field (decodeStored (some raw)) (lit "public_key") = .string bound.publicKey
  expirationDate : field (decodeStored (some raw)) (lit "expiration_date") = .string bound.expirationDate

def AnswersKey (key : GoString) : Option StoredKey → Except Response Response → Prop
  | some bound, answer => ∃ raw, answer = .ok (.json 200 raw) ∧ ShowsKey raw key bound
  | none, answer => answer = .error (.error 404 [lit "Cannot find key " ++ key])

theorem getKey_shows (regular : AllAccounts Regular s) (resolves : Resolves s route)
    (present : (s.get route.org route.segment name).isSome) :
    AnswersKey key (keyring s (route, name) key) ((getKey route name key).run exec s).1 := by
  obtain ⟨raw, stored⟩ := Option.isSome_iff_exists.mp present
  obtain ⟨actor, decoded⟩ := (regular (route, name)).record raw stored
  have loads : Loads s route name actor := ⟨raw, stored, decoded⟩
  rw [getKey, run_scope_bind resolves, run_loadActor_bind loads, run_get_bind, keyring,
    Account.keys, loads.publicKey]
  cases found : s.get route.org (keysColl route.segment name) key with
  | some row =>
    obtain ⟨pub, exp, rfl⟩ := (regular (route, name)).row key row found
    have row : (accounts s (route, name)).rows key = some (keyRow key pub exp) := found
    rw [row, keyFrom, decode_keyRow]
    exact ⟨_, rfl, rfl, rfl, rfl⟩
  | none =>
    have row : (accounts s (route, name)).rows key = none := found
    rw [row, keyFrom]
    by_cases isOwn : key = defaultKeyName ∧ actorKey actor ≠ []
    · rw [if_pos isOwn]
      simp only [if_pos isOwn]
      obtain ⟨rfl, -⟩ := isOwn
      exact ⟨_, rfl, rfl, rfl, rfl⟩
    · rw [if_neg isOwn]
      simp only [if_neg isOwn]
      rfl

theorem leads_ok {h : Handler α} {inv : Store → Prop} {post : α → Store → Prop} {x : α}
    (leads : Leads exec inv h s post) (ran : h.run exec s = (.ok x, t)) : post x t := by
  unfold Leads at leads
  rwa [ran] at leads

/-- In every state the handlers work on the map of keys, unless an update gives a default key that is
not stored another name. -/
theorem keys_handled_as_map [Unicode] {enforceACL : Bool}
    (reached : Serves enforceACL (fun _ _ => True) s)
    (route : ActorRoute) (name : GoString) :
    (∀ env r response t, (addKey env r route name).run exec s = (.ok response, t) → ∃ body key,
      unmarshalMap r.body = some body ∧ key = str (field (contents body) (lit "name")) ∧
      keyring s (route, name) key = none ∧
      Binds s t (route, name) (update (keyring s (route, name)) key
        (some ⟨orElse (str (field (contents body) (lit "public_key"))) env.publicKey,
          orElse (str (field (contents body) (lit "expiration_date"))) infinity⟩))) ∧
    (∀ key, Resolves s route → (s.get route.org route.segment name).isSome →
      AnswersKey key (keyring s (route, name) key) ((getKey route name key).run exec s).1) ∧
    (∀ env r key response t, (putKey env r route name key).run exec s = (.ok response, t) → ∃ body old,
      unmarshalMap r.body = some body ∧ keyring s (route, name) key = some old ∧
      (Moves s t (route, name) key (amendedName (contents body) key) (amendedKey env (contents body) old) ↔
        ¬ Misnames s route name key body)) ∧
    ∀ key response t, (deleteKey route name key).run exec s = (.ok response, t) →
      (keyring s (route, name) key).isSome ∧
      Binds s t (route, name) (update (keyring s (route, name)) key none) := by
  have regular := regular_of_serves reached
  refine ⟨?_, ?_, ?_, ?_⟩
  · exact fun _ _ _ _ ran => leads_ok addKey_binds ran
  · exact fun _ resolves present => getKey_shows regular resolves present
  · exact fun _ _ _ _ _ ran => leads_ok putKey_moves ran
  · exact fun _ _ _ ran => leads_ok (deleteKey_binds regular) ran

def laptop : GoString := lit "laptop"

def keyedStore [Unicode] : Store := serveAll true [createsKeyed none leaver] Store.newMemoryBackend

theorem serves_keyed [Unicode] : Serves true (fun _ _ => True) keyedStore :=
  Serves.all .start (by simp)

def namesLaptop : Request := creates [(lit "name", .string laptop)]

theorem bob_keys_handled :
    letI : Unicode := ⟨id⟩
    (∃ response t, (addKey keyedEnv namesLaptop .users leaver).run exec keyedStore = (.ok response, t) ∧
      keyring t (.users, leaver) laptop = some ⟨lit "key", infinity⟩) ∧
    AnswersKey defaultKeyName (keyring keyedStore (.users, leaver) defaultKeyName)
      ((getKey .users leaver defaultKeyName).run exec keyedStore).1 ∧
    (∃ response t, (putKey keyedEnv (creates []) .users leaver defaultKeyName).run exec keyedStore = (.ok response, t) ∧
      (keyring t (.users, leaver) defaultKeyName).isSome) ∧
    ∃ response t, (deleteKey .users leaver defaultKeyName).run exec keyedStore = (.ok response, t) ∧
      keyring t (.users, leaver) defaultKeyName = none := by
  let _ : Unicode := ⟨id⟩
  obtain ⟨adds, shows, puts, deletes⟩ := keys_handled_as_map serves_keyed .users leaver
  have closed : (((addKey keyedEnv namesLaptop .users leaver).run exec keyedStore).1.isOk ∧
      ((putKey keyedEnv (creates []) .users leaver defaultKeyName).run exec keyedStore).1.isOk ∧
      ((deleteKey .users leaver defaultKeyName).run exec keyedStore).1.isOk) ∧
      (keyedStore.get global users leaver).isSome := by decide +kernel
  obtain ⟨⟨added, updated, deleted⟩, present⟩ := closed
  refine ⟨?_, shows _ trivial present, ?_, ?_⟩
  · obtain ⟨response, ran⟩ := run_of_isOk added
    obtain ⟨body, key, decoded, rfl, -, bound⟩ := adds _ _ _ _ ran
    refine ⟨response, _, ran, ?_⟩
    obtain rfl : _ = body := Option.some.inj decoded
    rw [bound, update_self]
    rfl
  · obtain ⟨response, ran⟩ := run_of_isOk updated
    obtain ⟨body, old, decoded, -, moves⟩ := puts _ _ _ _ _ ran
    refine ⟨response, _, ran, ?_⟩
    obtain rfl : _ = body := Option.some.inj decoded
    rw [(moves.mpr fun misnames => misnames.2.2 rfl).bound, update_self]
    rfl
  · obtain ⟨response, ran⟩ := run_of_isOk deleted
    exact ⟨response, _, ran, by rw [(deletes _ _ _ ran).2, update_self, update_self]⟩

theorem default_key_keeps_name :
    letI : Unicode := ⟨id⟩
    Serves true (fun _ _ => True) keyedStore ∧
      ∃ response t, (putKey keyedEnv namesLaptop .users leaver defaultKeyName).run exec keyedStore = (.ok response, t) ∧
        (keyring keyedStore (.users, leaver) defaultKeyName).isSome ∧
        (keyring t (.users, leaver) defaultKeyName).isSome ∧ keyring t (.users, leaver) laptop = none := by
  let _ : Unicode := ⟨id⟩
  have closed : (((putKey keyedEnv namesLaptop .users leaver defaultKeyName).run exec keyedStore).1.isOk ∧
      (keyring keyedStore (.users, leaver) defaultKeyName).isSome) ∧
      (keyring ((putKey keyedEnv namesLaptop .users leaver defaultKeyName).run exec keyedStore).2 (.users, leaver)
        defaultKeyName).isSome ∧
      (keyring ((putKey keyedEnv namesLaptop .users leaver defaultKeyName).run exec keyedStore).2 (.users, leaver)
        laptop).isNone := by decide +kernel
  obtain ⟨⟨went, bound⟩, still, absent⟩ := closed
  obtain ⟨response, ran⟩ := run_of_isOk went
  exact ⟨serves_keyed, response, _, ran, bound, still, Option.isNone_iff_eq_none.mp absent⟩

/-! ## What a request leaves alone -/

variable {org coll : GoString} {f : Footprint} {removed : GoString → Prop}

def PublicColl (coll : GoString) : Prop := 0x3A ∈ coll ∨ coll ∈ users :: clients :: plainColls

instance (coll : GoString) : Decidable (PublicColl coll) := inferInstanceAs (Decidable (_ ∨ _))

def PublicColls (f : Footprint) : Prop :=
  (∀ coll ∈ f.puts, PublicColl coll) ∧ ∀ coll ∈ f.deletes, PublicColl coll

theorem public_segment (route : ActorRoute) : PublicColl route.segment := by
  cases route with
  | users => exact (by decide : PublicColl users)
  | clients org => exact (by decide : PublicColl clients)

theorem public_keysColl (segment name : GoString) : PublicColl (keysColl segment name) :=
  .inl (colon_mem_keysColl segment name)

theorem public_of_fixed (fixed : Fixed coll) : PublicColl coll := by
  obtain plain | ⟨bag, rfl⟩ | ⟨policy, rfl⟩ := fixed
  · exact .inr (List.mem_cons_of_mem _ (List.mem_cons_of_mem _ plain))
  · exact .inl (colon_mem_dataBagItemsColl bag)
  · exact .inl (colon_mem_policyRevColl policy)

theorem publicColls_footprint (request : ApiRequest) : PublicColls (footprint request) := by
  have named : PublicColl passwordsCollection ∧ PublicColl aclsColl ∧ PublicColl groupMembersColl ∧
      PublicColl orgsColl := by decide
  by_cases touches : TouchesAccounts request
  · cases request with
    | actor route request => cases request <;> simp [PublicColls, footprint, named, public_segment, public_keysColl]
    | organization request => simp [PublicColls, footprint, named]
    | _ => cases touches
  · obtain ⟨puts, deletes⟩ := footprint_fixed touches
    exact ⟨fun coll mem => public_of_fixed (puts coll mem),
      fun coll mem => public_of_fixed (deletes coll mem)⟩

theorem publicColls_seed : PublicColls seedWrites := ⟨by decide, by decide⟩

theorem Frame.privateColl (frame : Frame org f s t) (known : PublicColls f)
    (hidden : ¬ PublicColl coll) {org' : GoString} :
    t.get org' coll key = s.get org' coll key :=
  frame.gets (fun mem => hidden (known.1 coll mem)) fun mem => hidden (known.2 coll mem)

theorem Deleted.privateColl {who : Principal} (deleted : Deleted s t who)
    (hidden : ¬ PublicColl coll) :
    t.get org coll key = s.get org coll key := by
  have fixed : ∀ other ∈ [assocColl, assocReqColl, groupMembersColl, groupsColl, aclsColl, users, clients], coll ≠ other := by
    rintro other mem rfl
    exact hidden (.inr ((by decide : [assocColl, assocReqColl, groupMembersColl, groupsColl, aclsColl, users, clients] ⊆
      users :: clients :: plainColls) mem))
  have noOwn : ¬ IsOwn who org coll key := by
    rintro ⟨-, ⟨same, -⟩ | same | ⟨same, -⟩⟩
    · exact fixed aclsColl (by simp) same.symm
    · exact hidden (same ▸ public_keysColl _ _)
    · cases who with
      | user name => exact fixed users (by simp) same.symm
      | client org name => exact fixed clients (by simp) same.symm
  have swept := deleted.swept org coll key noOwn
  cases found : t.get org coll key with
  | none =>
    rw [found] at swept
    by_contra lost
    have still := swept.kept (by simpa using ⟨fixed assocColl (by simp), fixed assocReqColl (by simp), fixed groupMembersColl (by simp)⟩)
      (Option.isSome_iff_ne_none.mpr (Ne.symm lost))
    cases still
  | some raw =>
    obtain ⟨old, stored, same⟩ := swept.from_stored raw found
    rcases same with rfl | ⟨here, -⟩ | ⟨here, -⟩
    · exact stored.symm
    · exact absurd here (fixed groupsColl (by simp))
    · exact absurd here (fixed aclsColl (by simp))

structure Unscathed (coll : GoString) (removed : GoString → Prop) (s t : Store) : Prop where
  global : ∀ key, t.get global coll key = s.get global coll key
  orgs : ∀ org, ¬ removed org → s.hasOrg org → t.hasOrg org

theorem Unscathed.refl (s : Store) : Unscathed coll removed s s := ⟨fun _ => rfl, fun _ _ => id⟩

theorem Unscathed.trans {u : Store} (first : Unscathed coll removed s t)
    (second : Unscathed coll removed t u) : Unscathed coll removed s u :=
  ⟨fun key => (second.global key).trans (first.global key), fun org stays present => second.orgs org stays (first.orgs org stays present)⟩

theorem Frame.unscathed {space : GoString} (hidden : ¬ PublicColl coll) (known : PublicColls f)
    (frame : Frame space f s t) : Unscathed coll removed s t :=
  ⟨fun _ => frame.privateColl known hidden, fun org _ present => (frame.hasOrg org).trans present⟩

def Removes (request : ApiRequest) (org : GoString) : Prop := request = .organization (.delete org)

theorem unscathed_request [Unicode] {enforceACL : Bool} (hidden : ¬ PublicColl coll)
    (placed : Placed s) (request : ApiRequest) :
    Leads exec (Unscathed coll (Removes request) s) (request.handler enforceACL) s
      fun _ => Unscathed coll (Removes request) s := by
  by_cases framed : Framed request
  · exact leads_framed framed (.refl s) fun _ _ _ frame =>
      frame.unscathed hidden (publicColls_footprint request)
  obtain ⟨route, r, name, rfl⟩ | ⟨env, r, rfl⟩ | ⟨name, rfl⟩ := unframed_cases framed
  · refine leads_deleteActor placed.noGlobal (.refl s) fun _ t deleted => ?_
    exact ⟨fun _ => deleted.privateColl hidden,
      fun org _ present => (hasOrg_congr deleted.orgs org).trans present⟩
  · refine leads_createOrganization (.refl s) fun fullName valid _ => leads_furnishOrg ?_
    have seeded (t : Store) (frame : Frame (newOrgName r) seedWrites (s.createOrg (newOrgName r)).1 t) :
        Unscathed coll (Removes (.organization (.create env r))) s t := by
      refine ⟨fun key => ?_, fun org _ present => ?_⟩
      · rw [frame.privateColl publicColls_seed hidden, Proof.Store.get_createOrg]
      · rw [frame.hasOrg, Proof.Store.hasOrg_createOrg, present, Bool.or_true]
    refine (leads_within within_seedOrg seeded).mono fun _ t frame => ?_
    have put {t : Store} {space other key : GoString} {raw : Raw} (known : PublicColl other)
        (before : Unscathed coll (Removes (.organization (.create env r))) s t) :
        Unscathed coll (Removes (.organization (.create env r))) s (t.put space other key raw) :=
      before.trans ((frame_put_one t).unscathed hidden ⟨by simpa using known, by simp⟩)
    exact put (by decide) (put (by decide) (put (by decide) (seeded t frame)))
  · have kept {t : Store} (frame : Frame global ⟨[], [orgsColl]⟩ s t) :
        Unscathed coll (Removes (.organization (.delete name))) s t := frame.unscathed hidden ⟨by decide, by decide⟩
    refine leads_deleteOrganization kept fun {t} frame => ?_
    refine (kept frame).trans ⟨fun key => ?_, fun org stays present => ?_⟩
    · rw [Proof.Store.get_deleteOrg, if_neg]
      rintro ⟨present, rfl⟩
      rw [frame.hasOrg, placed.noGlobal] at present
      cases present
    · rw [Proof.Store.hasOrg_deleteOrg, present, Bool.and_true]
      exact bne_iff_ne.mpr fun same => stays (same ▸ rfl)

def Targets : ApiRequest → ActorRoute × GoString → Prop
  | .actor route (.put _ _ name), who => who = (route, name)
  | .actor route (.delete _ name), who => who = (route, name)
  | .actor route (.key name _), who => who = (route, name)
  | .organization (.delete org), who => who.1.org = org
  | _, _ => False

theorem record_request [Unicode] {enforceACL : Bool} {raw : Raw} (all : AllAccounts Regular s)
    (placed : Placed s)
    (request : ApiRequest) (apart : ¬ Targets request who) (present : Available s who.1.org)
    (stored : (accounts s who).record = some raw) :
    Leads exec (fun t => (accounts t who).record = some raw) (request.handler enforceACL) s
      fun _ t => (accounts t who).record = some raw := by
  rw [leads_iff]
  rcases leads_iff.mp (changes_request placed (fun who => (all who).shaped) request) who with same | effect
  · rw [same, stored]
  generalize accounts _ who = a at effect
  cases effect with
  | created registers => exact absurd (registers.fresh.symm.trans stored) (by simp)
  | updated | key | torn | deleted => exact absurd rfl apart
  | validator valid absent =>
    rcases present with isGlobal | present
    · exact absurd isGlobal (orgName_ne_global valid)
    · exact absurd (absent.symm.trans present) (by simp)
  | removed inside => exact absurd inside apart

/-- No requests change the record of an actor that none of them updates or deletes. -/
theorem record_survives [Unicode] {enforceACL : Bool} {raw : Raw} {requests : List ApiRequest}
    (reached : Serves enforceACL (fun _ _ => True) s) (stored : (accounts s who).record = some raw)
    (apart : ∀ request ∈ requests, ¬ Targets request who) :
    (accounts (serveAll enforceACL requests s) who).record = some raw := by
  induction requests generalizing s with
  | nil => exact stored
  | cons request requests ih =>
    obtain ⟨first, rest⟩ := List.forall_mem_cons.mp apart
    have placed := placed_of_serves reached
    have present := placed.placed (Option.isSome_of_eq_some stored)
    have kept := @record_request s who _ enforceACL _ (regular_of_serves reached) placed request first present stored
    exact ih (.serve reached request trivial) (leads_iff.mp kept) rest

theorem keyed_record_survives :
    letI : Unicode := ⟨id⟩
    ∃ raw, (accounts keyedStore (.users, leaver)).record = some raw ∧
      (accounts (serveAll true [createsKeyed none laptop] keyedStore) (.users, leaver)).record = some raw := by
  let _ : Unicode := ⟨id⟩
  have stored : (keyedStore.get global users leaver).isSome := by decide +kernel
  obtain ⟨raw, stored⟩ := Option.isSome_iff_exists.mp stored
  exact ⟨raw, stored, record_survives serves_keyed stored (by simp [createsKeyed, Targets])⟩

end CincServer.Proof.Api
