import CincServer.Api.Organizations

/-!
# The cached index of an organization's groups

`groupIndexCache.get` as its steps: each is one access to the cache, to the generation of the groups or
to the store. Two systems run around it: the sections that change memberships under the membership lock,
and the deletion and creation of the organization.
-/

namespace CincServer.Api
open Go Json Lib

def indexDocs (docs : List (GoString × Raw)) : GroupIndex :=
  docs.foldl (fun idx doc => idx.addAll doc.1 (indexMembers doc.2)) GroupIndex.empty

def indexRows (idx : GroupIndex) (rows : List (GoString × Raw)) : GroupIndex :=
  rows.foldl (fun idx row => idx.addRow row.1) idx

structure CachedIndex where
  gen : Nat
  idx : GroupIndex

/-- How far a call of `get` has come: it has looked an index up, waits for the lock, holds it, found
nothing current under it, and builds. An index is addressed by its place in `GroupCache.indexes`. -/
inductive CacheGet
  | started
  | looked (found : Option Nat)
  | waiting
  | locked
  | building
  | sampled (gen : Nat)
  | readDocs (read : CachedIndex)
  | readRows (built : CachedIndex)
  | returned (index : Nat)

def CacheGet.result : CacheGet → Option Nat
  | .returned index => some index
  | _ => none

def CacheGet.holdsLock : CacheGet → Bool
  | .locked | .building | .sampled _ | .readDocs _ | .readRows _ => true
  | _ => false

/-- The store, the generation of the groups, every index there has been for the organization, the one
that is cached, and the calls of `get` in the order they started. -/
structure GroupCache where
  store : Store
  groupsGen : Nat
  indexes : List CachedIndex
  current : Option Nat
  gets : List CacheGet

namespace GroupCache

def start (store : Store) (groupsGen : Nat) : GroupCache := ⟨store, groupsGen, [], none, []⟩

def unlocked (c : GroupCache) : Bool := c.gets.all (!·.holdsLock)

def upToDate (c : GroupCache) (found : Option Nat) : Option Nat :=
  found.filter fun p => (c.indexes[p]?).any fun cached => cached.gen = c.groupsGen

def setGet (c : GroupCache) (i : Nat) (get : CacheGet) :
    GroupCache := { c with gets := c.gets.set i get }

def startGet (c : GroupCache) : GroupCache := { c with gets := c.gets ++ [.started] }

def getStep (org : GoString) (c : GroupCache) (i : Nat) : Option GroupCache :=
  match c.gets[i]? with
  | some .started => if c.unlocked then some (c.setGet i (.looked c.current)) else none
  | some (.looked found) =>
    some (c.setGet i (match c.upToDate found with
      | some p => .returned p
      | none => .waiting))
  | some .waiting => if c.unlocked then some (c.setGet i .locked) else none
  | some .locked =>
    some (c.setGet i (match c.upToDate c.current with
      | some p => .returned p
      | none => .building))
  | some .building => some (c.setGet i (.sampled c.groupsGen))
  | some (.sampled gen) => some (c.setGet i (.readDocs ⟨gen, indexDocs (c.store.range org groupsColl)⟩))
  | some (.readDocs read) =>
    some (c.setGet i (.readRows { read with idx := indexRows read.idx (c.store.range org groupMembersColl) }))
  | some (.readRows built) =>
    some { c with
      indexes := c.indexes ++ [built]
      current := some c.indexes.length
      gets := c.gets.set i (.returned c.indexes.length) }
  | _ => none

def yielded (c : GroupCache) (i : Nat) : Option CachedIndex := do
  let get ← c.gets[i]?
  let p ← get.result
  c.indexes[p]?

def observe (c : GroupCache) (key : GoString) (deleted : Bool) : Option GroupCache :=
  match splitMemberKey key with
  | none => some c
  | some (group, kind, actor) =>
    if !c.unlocked then none
    else match c.current with
      | none => some c
      | some p =>
        if deleted then some { c with current := none }
        else some { c with indexes := c.indexes.modify p fun cached => { cached with idx := cached.idx.addOne group kind actor } }

inductive Call
  | start
  | next (i : Nat)

def callStep (org : GoString) (c : GroupCache) : Call → Option GroupCache
  | .start => some c.startGet
  | .next i => c.getStep org i

end GroupCache

/-- A shared section of the membership lock: `wrote` is between the write of a row and its event. -/
inductive Sharing
  | idle
  | wrote (key : GoString)
deriving DecidableEq

/-- The exclusive section: `wroteDoc` is between the write of a group document and the advance of the
generation, `deletedRow` between the deletion of a row and its event. -/
inductive Excluding
  | idle
  | wroteDoc
  | deletedRow (key : GoString)
deriving DecidableEq

structure MembershipSystem where
  cache : GroupCache
  sharing : List Sharing
  excluding : Option Excluding

inductive MembershipAction
  | startGet
  | get (i : Nat)
  | rlock
  | addMember (i : Nat) (key : GoString) (raw : Raw)
  | deliverAdded (i : Nat)
  | runlock (i : Nat)
  | lock
  | putGroup (name : GoString) (raw : Raw)
  | deleteGroup (name : GoString)
  | noteWrite
  | deleteMember (key : GoString)
  | deliverDeleted
  | unlock
  | noteElsewhere

namespace MembershipSystem

def start (store : Store) (groupsGen : Nat) : MembershipSystem :=
  ⟨GroupCache.start store groupsGen, [], none⟩

def write (s : MembershipSystem) (store : Store) (next : Excluding) : MembershipSystem :=
  { s with cache.store := store, excluding := some next }

def step (org : GoString) (s : MembershipSystem) : MembershipAction → Option MembershipSystem
  | .startGet => some { s with cache := s.cache.startGet }
  | .get i => (s.cache.getStep org i).map ({ s with cache := · })
  | .rlock => if s.excluding.isNone then some { s with sharing := s.sharing ++ [.idle] } else none
  | .addMember i key raw =>
    match s.sharing[i]? with
    | some .idle =>
      some { s with
        cache.store := s.cache.store.put org groupMembersColl key raw
        sharing := s.sharing.set i (.wrote key) }
    | _ => none
  | .deliverAdded i =>
    match s.sharing[i]? with
    | some (.wrote key) =>
      (s.cache.observe key false).map ({ s with cache := ·, sharing := s.sharing.set i .idle })
    | _ => none
  | .runlock i =>
    match s.sharing[i]? with
    | some .idle => some { s with sharing := s.sharing.eraseIdx i }
    | _ => none
  | .lock => if s.excluding.isNone && s.sharing.isEmpty then some { s with excluding := some .idle } else none
  | .putGroup name raw =>
    match s.excluding with
    | some .idle => some (s.write (s.cache.store.put org groupsColl name raw) .wroteDoc)
    | _ => none
  | .deleteGroup name =>
    match s.excluding with
    | some .idle =>
      match s.cache.store.delete org groupsColl name with
      | (store, some _) => some (s.write store .wroteDoc)
      | (_, none) => some s
    | _ => none
  | .noteWrite =>
    match s.excluding with
    | some .wroteDoc => some { s with cache.groupsGen := s.cache.groupsGen + 1, excluding := some .idle }
    | _ => none
  | .deleteMember key =>
    match s.excluding with
    | some .idle =>
      match s.cache.store.delete org groupMembersColl key with
      | (store, some _) => some (s.write store (.deletedRow key))
      | (_, none) => some s
    | _ => none
  | .deliverDeleted =>
    match s.excluding with
    | some (.deletedRow key) =>
      (s.cache.observe key true).map ({ s with cache := ·, excluding := some .idle })
    | _ => none
  | .unlock =>
    match s.excluding with
    | some .idle => some { s with excluding := none }
    | _ => none
  | .noteElsewhere => some { s with cache.groupsGen := s.cache.groupsGen + 1 }

def Quiescent (s : MembershipSystem) : Prop :=
  s.sharing = [] ∧ s.excluding = none ∧ ∀ get ∈ s.cache.gets, get.result.isSome

end MembershipSystem

def noteWrite : (c : StoreCall) → c.Result → Nat
  | .put _ coll _ _, _ => if coll = groupsColl then 1 else 0
  | .create _ coll _ _, (created : Bool) => if created && coll = groupsColl then 1 else 0
  | .delete _ coll _, (old : Option Raw) => if old.isSome && coll = groupsColl then 1 else 0
  | _, _ => 0

structure CreationTx where
  view : Store
  rest : Handler Unit

/-- The deletions of an organization, a creation's transaction and the gets of its index. A deletion's
`DeleteOrg` is one step, as it is in memory and in SQLite with group commit. -/
structure OrgSystem where
  cache : GroupCache
  deletes : List (Handler Response)
  tx : Option CreationTx

inductive OrgAction
  | startGet
  | get (i : Nat)
  | startDelete
  | delete (i : Nat)
  | begin (env : Env) (fullName : GoString)
  | work
  | commit
  | rollback

namespace OrgSystem

def start (store : Store) (groupsGen : Nat) : OrgSystem :=
  ⟨GroupCache.start store groupsGen, [], none⟩

def step (org : GoString) (s : OrgSystem) : OrgAction → Option OrgSystem
  | .startGet => some { s with cache := s.cache.startGet }
  | .get i => (s.cache.getStep org i).map ({ s with cache := · })
  | .startDelete => some { s with deletes := s.deletes ++ [deleteOrganization org] }
  | .delete i =>
    match s.deletes[i]?, s.tx with
    | some (.call c next), none =>
      some { s with
        cache.store := (exec c s.cache.store).2
        cache.groupsGen := s.cache.groupsGen + noteWrite c (exec c s.cache.store).1
        deletes := s.deletes.set i (next (exec c s.cache.store).1) }
    | _, _ => none
  | .begin env fullName =>
    match s.tx with
    | none => some { s with tx := some ⟨s.cache.store, createOrganizationWithKey env org fullName⟩ }
    | some _ => none
  | .work =>
    match s.tx with
    | some ⟨view, .call c next⟩ =>
      some { s with
        cache.groupsGen := s.cache.groupsGen + noteWrite c (exec c view).1
        tx := some ⟨(exec c view).2, next (exec c view).1⟩ }
    | _ => none
  | .commit =>
    match s.tx with
    | some ⟨view, .ret _⟩ => some { s with cache.store := view, tx := none }
    | _ => none
  | .rollback =>
    match s.tx with
    | some ⟨_, .stop _⟩ => some { s with tx := none }
    | _ => none

def ended : Handler Response → Bool
  | .call .. => false
  | _ => true

def Quiescent (s : OrgSystem) : Prop :=
  s.tx = none ∧ (∀ delete ∈ s.deletes, ended delete) ∧ ∀ get ∈ s.cache.gets, get.result.isSome

end OrgSystem

end CincServer.Api
