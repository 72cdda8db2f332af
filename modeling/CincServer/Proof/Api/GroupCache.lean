import CincServer.Api.GroupCache
import CincServer.Lib.Transition
import CincServer.Proof.Api.Sessions

/-!
# What is promised of a cached index
-/

namespace CincServer.Proof.Api
open CincServer.Api CincServer.Json Go Lib Program
open GroupCache (yielded upToDate observe callStep)
open Option (any_eq_true)

variable {org key : GoString} {c d : GroupCache} {i : Nat} {right : GroupIndex → Prop}
  {indexes : List CachedIndex} {get : CacheGet} {built x : CachedIndex} {p : Nat}

def Indexes (idx : GroupIndex) (group : GoString) (kind : MemberKind) (member : GoString) : Prop :=
  group ∈ (idx.table kind).getD member []

instance (idx : GroupIndex) (group : GoString) (kind : MemberKind) (member : GoString) :
    Decidable (Indexes idx group kind member) :=
  inferInstanceAs (Decidable (group ∈ (idx.table kind).getD member []))

def rowAdded (key : GoString) (x : CachedIndex) : CachedIndex := { x with idx := x.idx.addRow key }

structure Promise where
  counted : Nat → Prop
  sampled : Nat → Prop
  docs : Nat → CachedIndex → Prop
  rows : Nat → CachedIndex → Prop
  current : CachedIndex → Prop
  returned : CachedIndex → Prop

namespace Promise

variable {m m' : Promise}

def At (m : Promise) (indexes : List CachedIndex) (i : Nat) : CacheGet → Prop
  | .looked (some p) => m.counted i → ∃ x, indexes[p]? = some x ∧ m.current x
  | .sampled gen => m.sampled gen
  | .readDocs read => m.docs i read
  | .readRows built => m.rows i built
  | .returned p => m.counted i → ∃ x, indexes[p]? = some x ∧ m.returned x
  | _ => True

structure Kept (m : Promise) (c : GroupCache) : Prop where
  current : ∀ p, c.current = some p → ∃ x, c.indexes[p]? = some x ∧ m.current x
  gets : ∀ i get, c.gets[i]? = some get → m.At c.indexes i get

structure Follows (m : Promise) (org : GoString) (c : GroupCache) (i : Nat) : Prop where
  samples : m.sampled c.groupsGen
  reads : ∀ gen, c.gets[i]? = some (.sampled gen) → m.sampled gen →
    m.docs i ⟨gen, indexDocs (c.store.range org groupsColl)⟩
  adds : ∀ x, m.docs i x → m.rows i { x with idx := indexRows x.idx (c.store.range org groupMembersColl) }
  caches : ∀ x, m.rows i x → m.current x
  returns : ∀ x, m.counted i → m.rows i x → m.returned x
  reuses : ∀ x, m.current x → x.gen = c.groupsGen → m.returned x

structure Implies (m m' : Promise) : Prop where
  counted : ∀ i, m'.counted i → m.counted i
  sampled : ∀ gen, m.sampled gen → m'.sampled gen
  docs : ∀ i x, m.docs i x → m'.docs i x
  rows : ∀ i x, m.rows i x → m'.rows i x
  current : ∀ x, m.current x → m'.current x
  returned : ∀ x, m.returned x → m'.returned x

theorem At.imp (implies : Implies m m') (before : m.At indexes i get) : m'.At indexes i get := by
  cases get with
  | looked found =>
    cases found with
    | none => trivial
    | some p => exact fun counts => (before (implies.counted i counts)).imp fun x => And.imp_right (implies.current x)
  | sampled gen => exact implies.sampled gen before
  | readDocs read => exact implies.docs i read before
  | readRows built => exact implies.rows i built before
  | returned p => exact fun counts => (before (implies.counted i counts)).imp fun x => And.imp_right (implies.returned x)
  | _ => trivial

theorem At.append (before : m.At indexes i get) : m.At (indexes ++ [built]) i get := by
  have kept {p : Nat} {x : CachedIndex} (found : indexes[p]? = some x) :
      (indexes ++ [built])[p]? = some x := by
    rw [List.getElem?_append_left (List.getElem?_eq_some_iff.mp found).1, found]
  cases get with
  | looked found =>
    cases found with
    | none => trivial
    | some p => exact fun counts => (before counts).imp fun x => And.imp_left kept
  | returned p => exact fun counts => (before counts).imp fun x => And.imp_left kept
  | _ => exact before

namespace Kept

theorem imp (kept : Kept m c) (implies : Implies m m') : Kept m' c where
  current p found := (kept.current p found).imp fun x => And.imp_right (implies.current x)
  gets i get found := (kept.gets i get found).imp implies

theorem moves (kept : Kept m c) (implies : Implies m m') (current : d.current = c.current)
    (indexes : d.indexes = c.indexes) (gets : d.gets = c.gets) : Kept m' d := by
  have after := kept.imp implies
  refine ⟨?_, ?_⟩
  · rw [current, indexes]
    exact after.current
  · rw [indexes, gets]
    exact after.gets

theorem start (store : Store) (gen : Nat) : Kept m (.start store gen) where
  current _ found := by cases found
  gets _ _ found := by cases found

theorem startGet (kept : Kept m c) : Kept m c.startGet where
  current := kept.current
  gets i get found := by
    rw [GroupCache.startGet, List.getElem?_append] at found
    split_ifs at found with before
    · exact kept.gets i get found
    · obtain rfl := List.mem_singleton.mp (List.mem_of_getElem? found)
      trivial

theorem setGet (kept : Kept m c) (next : m.At c.indexes i get) : Kept m (c.setGet i get) where
  current := kept.current
  gets j other found := by
    rw [GroupCache.setGet, List.getElem?_set] at found
    split_ifs at found with same inside
    · subst same
      obtain rfl := Option.some.inj found
      exact next
    · exact kept.gets j other found

theorem install (kept : Kept m c) (caches : m.current built)
    (returns : m.counted i → m.returned built) :
    Kept m { c with
      indexes := c.indexes ++ [built]
      current := some c.indexes.length
      gets := c.gets.set i (.returned c.indexes.length) } := by
  have last : (c.indexes ++ [built])[c.indexes.length]? = some built := List.getElem?_concat_length
  refine ⟨fun p found => ?_, fun j other found => ?_⟩
  · obtain rfl := Option.some.inj found
    exact ⟨built, last, caches⟩
  · rw [List.getElem?_set] at found
    split_ifs at found with same inside
    · subst same
      obtain rfl := Option.some.inj found
      exact fun counts => ⟨built, last, returns counts⟩
    · exact (kept.gets j other found).append

end Kept

end Promise

theorem result_eq_some : get.result = some p ↔ get = .returned p := by
  cases get <;> simp [CacheGet.result]

theorem yielded_eq_some :
    c.yielded i = some x ↔ ∃ p, c.gets[i]? = some (.returned p) ∧ c.indexes[p]? = some x := by
  simp only [yielded, Option.bind_eq_bind, Option.bind_eq_some_iff, result_eq_some]
  constructor
  · rintro ⟨get, here, p, rfl, found⟩
    exact ⟨p, here, found⟩
  · rintro ⟨p, here, found⟩
    exact ⟨_, here, p, rfl, found⟩

theorem Promise.Kept.yielded {m : Promise} (kept : Kept m c) (counts : m.counted i)
    (yields : c.yielded i = some x) : m.returned x := by
  obtain ⟨p, here, there⟩ := yielded_eq_some.mp yields
  obtain ⟨x', there', promised⟩ := kept.gets i _ here counts
  obtain rfl := Option.some.inj (there.symm.trans there')
  exact promised

theorem upToDate_eq_some {found : Option Nat} :
    c.upToDate found = some p ↔ found = some p ∧ ∃ x, c.indexes[p]? = some x ∧
      x.gen = c.groupsGen := by
  simp [upToDate, any_eq_true]

namespace Promise

variable {m m' : Promise}

theorem Kept.getStep (kept : Kept m c) (follows : m.Follows org c i)
    (taken : c.getStep org i = some d) : Kept m d := by
  unfold GroupCache.getStep at taken
  split at taken
  next found =>
    obtain ⟨-, rfl⟩ := Option.ite_none_right_eq_some.mp taken |>.imp_right Option.some.inj
    refine kept.setGet ?_
    cases cached : c.current with
    | none => trivial
    | some p => exact fun _ => kept.current p cached
  next found at_ =>
    obtain rfl := Option.some.inj taken
    refine kept.setGet ?_
    split
    next p fresh =>
      obtain ⟨rfl, x, here, current⟩ := upToDate_eq_some.mp fresh
      intro counts
      obtain ⟨x', here', promised⟩ := kept.gets i _ at_ counts
      obtain rfl := Option.some.inj (here.symm.trans here')
      exact ⟨x, here, follows.reuses x promised current⟩
    next => trivial
  next at_ =>
    obtain ⟨-, rfl⟩ := Option.ite_none_right_eq_some.mp taken |>.imp_right Option.some.inj
    exact kept.setGet trivial
  next at_ =>
    obtain rfl := Option.some.inj taken
    refine kept.setGet ?_
    split
    next p fresh =>
      obtain ⟨cached, x, here, current⟩ := upToDate_eq_some.mp fresh
      obtain ⟨x', here', promised⟩ := kept.current p cached
      obtain rfl := Option.some.inj (here.symm.trans here')
      exact fun _ => ⟨x, here, follows.reuses x promised current⟩
    next => trivial
  next at_ =>
    obtain rfl := Option.some.inj taken
    exact kept.setGet follows.samples
  next gen at_ =>
    obtain rfl := Option.some.inj taken
    exact kept.setGet (follows.reads gen at_ (kept.gets i _ at_))
  next read at_ =>
    obtain rfl := Option.some.inj taken
    exact kept.setGet (follows.adds read (kept.gets i _ at_))
  next built at_ =>
    obtain rfl := Option.some.inj taken
    have promised := kept.gets i _ at_
    exact kept.install (follows.caches built promised) fun counts =>
      follows.returns built counts promised
  next => cases taken

end Promise

theorem observe_cases {deleted : Bool} (taken : c.observe key deleted = some d) :
    splitMemberKey key = none ∧ d = c ∨
      (splitMemberKey key).isSome ∧ c.unlocked = true ∧ (c.current = none ∧ d = c ∨ ∃ p, c.current = some p ∧
          (deleted = true ∧ d = { c with current := none } ∨
            deleted = false ∧ d = { c with indexes := c.indexes.modify p (rowAdded key) })) := by
  unfold observe at taken
  split at taken
  next split => exact .inl ⟨split, (Option.some.inj taken).symm⟩
  next group kind actor split =>
    have patches : rowAdded key = fun cached =>
      { cached with idx := cached.idx.addOne group kind actor } := by
      funext x
      rw [rowAdded, GroupIndex.addRow, split]
    cases unlocked : c.unlocked with
    | false => simp [unlocked] at taken
    | true =>
      refine .inr ⟨by rw [split]; rfl, rfl, ?_⟩
      cases cached : c.current with
      | none =>
        simp only [unlocked, cached] at taken
        exact .inl ⟨rfl, (Option.some.inj taken).symm⟩
      | some p =>
        simp only [unlocked, cached] at taken
        refine .inr ⟨p, rfl, ?_⟩
        cases deleted with
        | true => exact .inl ⟨rfl, (Option.some.inj taken).symm⟩
        | false =>
          rw [patches]
          exact .inr ⟨rfl, (Option.some.inj taken).symm⟩

theorem observe_frame {deleted : Bool} (taken : c.observe key deleted = some d) :
    d.store = c.store ∧ d.groupsGen = c.groupsGen ∧ d.gets = c.gets := by
  obtain ⟨-, rfl⟩ | ⟨-, -, ⟨-, rfl⟩ | ⟨p, -, ⟨-, rfl⟩ | ⟨-, rfl⟩⟩⟩ :=
    observe_cases taken <;> exact ⟨rfl, rfl, rfl⟩

namespace Promise

variable {m m' : Promise}

structure Spared (m m' : Promise) : Prop where
  counted : ∀ i, m'.counted i → m.counted i
  looked : ∀ i, m'.counted i → ∀ x, m.current x → m'.current x
  returned : ∀ i, m'.counted i → ∀ x, m.returned x → m'.returned x

theorem At.spared (spared : Spared m m')
    (free : get.holdsLock = false) (before : m.At indexes i get) : m'.At indexes i get := by
  cases get with
  | looked found =>
    cases found with
    | none => trivial
    | some p =>
      exact fun counts => (before (spared.counted i counts)).imp fun x =>
        And.imp_right (spared.looked i counts x)
  | returned p =>
    exact fun counts => (before (spared.counted i counts)).imp fun x =>
      And.imp_right (spared.returned i counts x)
  | started | waiting => trivial
  | _ => cases free

theorem unlocked_get (unlocked : c.unlocked = true) (here : c.gets[i]? = some get) :
    get.holdsLock = false := by
  simpa using List.all_eq_true.mp unlocked get (List.mem_of_getElem? here)

theorem Kept.uncached (kept : Kept m c) (unlocked : c.unlocked = true) (spared : Spared m m')
    (none : d.current = none)
    (indexes : d.indexes = c.indexes) (gets : d.gets = c.gets) : Kept m' d where
  current p found := by
    rw [none] at found
    cases found
  gets i get here := by
    rw [gets] at here
    rw [indexes]
    exact (kept.gets i get here).spared spared (unlocked_get unlocked here)

theorem Kept.deleted (kept : Kept m c) (taken : c.observe key true = some d)
    (ignored : splitMemberKey key = none → Implies m m') (spared : Spared m m') : Kept m' d := by
  obtain ⟨split, rfl⟩ | ⟨-, unlocked, ⟨cached, rfl⟩ | ⟨p, -, ⟨-, rfl⟩ | ⟨wrong, -⟩⟩⟩ :=
    observe_cases taken
  · exact kept.imp (ignored split)
  · exact kept.uncached unlocked spared cached rfl rfl
  · exact kept.uncached unlocked spared rfl rfl rfl
  · cases wrong

theorem Kept.added (kept : Kept m c) (taken : c.observe key false = some d)
    (ignored : splitMemberKey key = none → Implies m m') (spared : Spared m m')
    (current : ∀ x, m.current x → m'.current (rowAdded key x))
    (returned : ∀ i, m'.counted i → ∀ x, m'.returned x → m'.returned (rowAdded key x)) :
    Kept m' d := by
  obtain ⟨split, rfl⟩ | ⟨-, unlocked, ⟨cached, rfl⟩ | ⟨p, cached, ⟨wrong, -⟩ | ⟨-, rfl⟩⟩⟩ :=
    observe_cases taken
  · exact kept.imp (ignored split)
  · exact kept.uncached unlocked spared cached rfl rfl
  · cases wrong
  · have patched {q : Nat} {P : CachedIndex → Prop} (was : ∃ x, c.indexes[q]? = some x ∧ P x ∧ P (rowAdded key x)) :
        ∃ x, (c.indexes.modify p (rowAdded key))[q]? = some x ∧ P x := by
      obtain ⟨x, here, same, changed⟩ := was
      rw [List.getElem?_modify, here]
      by_cases hit : p = q
      · exact ⟨rowAdded key x, by simp [hit], changed⟩
      · exact ⟨x, by simp [hit], same⟩
    -- a call may still point to an index that is no longer the cached one, and that one is not patched
    refine ⟨fun q found => ?_, fun i get here => ?_⟩
    · obtain rfl := Option.some.inj (cached.symm.trans found)
      obtain ⟨x, here, promised⟩ := kept.current p cached
      exact ⟨rowAdded key x, by simp [here], current x promised⟩
    · have before := kept.gets i get here
      have free := unlocked_get unlocked here
      cases get with
      | looked found =>
        cases found with
        | none => trivial
        | some q =>
          intro counts
          obtain ⟨x, there, promised⟩ := before (spared.counted i counts)
          exact patched ⟨x, there, spared.looked i counts x promised, current x promised⟩
      | returned q =>
        intro counts
        obtain ⟨x, there, promised⟩ := before (spared.counted i counts)
        have still := spared.returned i counts x promised
        exact patched ⟨x, there, still, returned i counts x still⟩
      | started | waiting => trivial
      | _ => cases free

end Promise

theorem getStep_frame (taken : c.getStep org i = some d) :
    d.store = c.store ∧ d.groupsGen = c.groupsGen := by
  unfold GroupCache.getStep at taken
  split at taken
  all_goals first
    | (obtain rfl := Option.some.inj taken; exact ⟨rfl, rfl⟩)
    | (obtain ⟨-, rfl⟩ := Option.ite_none_right_eq_some.mp taken |>.imp_right Option.some.inj; exact ⟨rfl, rfl⟩)
    | cases taken

def remaining : CacheGet → Nat
  | .started => 8
  | .looked _ => 7
  | .waiting => 6
  | .locked => 5
  | .building => 4
  | .sampled _ => 3
  | .readDocs _ => 2
  | .readRows _ => 1
  | .returned _ => 0

theorem exists_getStep (at_ : c.gets[i]? = some get) (running : remaining get ≠ 0)
    (free : ∀ j other, j ≠ i → c.gets[j]? = some other → other.holdsLock = false) :
    ∃ d next, c.getStep org i = some d ∧ d.gets = c.gets.set i next ∧
      remaining next < remaining get := by
  have unlocked (own : get.holdsLock = false) : c.unlocked = true := by
    refine List.all_eq_true.mpr fun other mem => ?_
    obtain ⟨j, here⟩ := List.mem_iff_getElem?.mp mem
    by_cases same : j = i
    · subst same
      obtain rfl := Option.some.inj (here.symm.trans at_)
      rw [own]
      rfl
    · rw [free j other same here]
      rfl
  cases get with
  | started | waiting =>
    simp only [GroupCache.getStep, at_, unlocked rfl, if_true]
    exact ⟨_, _, rfl, rfl, by simp [remaining]⟩
  | looked _ | locked =>
    simp only [GroupCache.getStep, at_]
    refine ⟨_, _, rfl, rfl, ?_⟩
    split <;> simp [remaining]
  | building | sampled _ | readDocs _ | readRows _ =>
    simp only [GroupCache.getStep, at_]
    exact ⟨_, _, rfl, rfl, by simp [remaining]⟩
  | returned p => exact absurd rfl running

theorem exists_returned {c₀ : GroupCache} (run : Run (callStep org) always c₀ c)
    (at_ : c.gets[i]? = some get)
    (free : ∀ j other, j ≠ i → c.gets[j]? = some other → other.holdsLock = false) :
    ∃ d p, Run (callStep org) always c₀ d ∧ d.gets[i]? = some (.returned p) := by
  -- on what is left of the call; the others have returned and stay out of the way
  induction left : remaining get using Nat.strong_induction_on generalizing c get with
  | _ left' ih =>
    by_cases running : remaining get = 0
    · cases get with
      | returned p => exact ⟨c, p, run, at_⟩
      | _ => cases running
    · obtain ⟨d, next, taken, gets, fewer⟩ := @exists_getStep org _ _ _ at_ running free
      have inside := (List.getElem?_eq_some_iff.mp at_).1
      refine ih (remaining next) (left ▸ fewer) (run.step (.next i) trivial taken) ?_ ?_ rfl
      · rw [gets, List.getElem?_set_self inside]
      · intro j other others here
        rw [gets, List.getElem?_set_ne (Ne.symm others)] at here
        exact free j other others here

def GetsYield (org : GoString) (right : GroupIndex → Prop) (c : GroupCache) : Prop :=
  (∃ d, Run (callStep org) always c d ∧ (d.yielded c.gets.length).isSome) ∧
    ∀ d i x, Run (callStep org) always c d → c.gets.length ≤ i → d.yielded i = some x → right x.idx

def unchanging (org : GoString) (right : GroupIndex → Prop) (c : GroupCache) : Promise where
  counted i := c.gets.length ≤ i
  sampled _ := True
  docs _ x := x.idx = indexDocs (c.store.range org groupsColl)
  rows _ x := right x.idx
  current x := x.gen = c.groupsGen → right x.idx
  returned x := right x.idx

theorem unchanging_follows (built : right (indexOf (c.store.range org groupsColl) (c.store.range org groupMembersColl)))
    (store : d.store = c.store) (gen : d.groupsGen = c.groupsGen) :
    (unchanging org right c).Follows org d i where
  samples := trivial
  reads _ _ _ := by rw [store]; rfl
  adds x read := by
    have whole : indexRows x.idx (d.store.range org groupMembersColl) =
        indexOf (c.store.range org groupsColl) (c.store.range org groupMembersColl) := by
      rw [store, (read : x.idx = _)]
      rfl
    exact whole ▸ built
  caches _ done _ := done
  returns _ _ done := done
  reuses _ cached fresh := cached (fresh.trans gen)

theorem getsYield (done : ∀ get ∈ c.gets, get.result.isSome)
    (built : right (indexOf (c.store.range org groupsColl) (c.store.range org groupMembersColl)))
    (cached : ∀ p, c.current = some p → ∃ x, c.indexes[p]? = some x ∧ (x.gen = c.groupsGen → right x.idx)) :
    GetsYield org right c := by
  have initial : (unchanging org right c).Kept c := by
    refine ⟨cached, fun i get here => ?_⟩
    obtain ⟨p, returned⟩ := Option.isSome_iff_exists.mp (done get (List.mem_of_getElem? here))
    obtain rfl := result_eq_some.mp returned
    exact fun counts => absurd (List.getElem?_eq_some_iff.mp here).1 (Nat.not_lt.mpr counts)
  have kept {d : GroupCache} (run : Run (callStep org) always c d) :
      (unchanging org right c).Kept d := by
    refine (@Run.invariant _ _ _ _ _ _
      (fun d => (unchanging org right c).Kept d ∧ d.store = c.store ∧
      d.groupsGen = c.groupsGen) run ⟨initial, rfl, rfl⟩ ?_).1
    rintro s t action ⟨kept, store, gen⟩ - taken
    cases action with
    | start =>
      obtain rfl := Option.some.inj taken
      exact ⟨kept.startGet, store, gen⟩
    | next i =>
      obtain ⟨sameStore, sameGen⟩ := getStep_frame taken
      exact ⟨kept.getStep (unchanging_follows built store gen) taken, sameStore.trans store,
        sameGen.trans gen⟩
  constructor
  · have started : c.startGet.gets[c.gets.length]? = some .started := List.getElem?_concat_length
    obtain ⟨d, p, run, here⟩ :=
      exists_returned (Run.start.step .start trivial rfl) started fun j other others here => by
      rw [GroupCache.startGet, List.getElem?_append] at here
      split_ifs at here with before
      · obtain ⟨p, returned⟩ := Option.isSome_iff_exists.mp (done other (List.mem_of_getElem? here))
        rw [result_eq_some.mp returned]
        rfl
      · obtain rfl := List.mem_singleton.mp (List.mem_of_getElem? here)
        rfl
    obtain ⟨x, there, -⟩ := (kept run).gets _ _ here (le_refl c.gets.length)
    exact ⟨d, run, by rw [yielded_eq_some.mpr ⟨p, here, there⟩]; rfl⟩
  · exact fun d i x run counts yields => (kept run).yielded counts yields

/-! ## The cached index of an organization that is made again -/

variable {org key : GoString} {store view : Store} {s t : OrgSystem} {whole whole' : GroupIndex} {x : CachedIndex}
  {env : Env} {fullName : GoString} {c : StoreCall}

def ofCreation : StoreCall → Prop
  | .get .. => True
  | .put _ coll _ _ => coll ≠ groupMembersColl
  | .createOrg _ => True
  | _ => False

theorem only_createOrganizationWithKey :
    (createOrganizationWithKey env org fullName).Only ofCreation := by
  have put {o coll key : GoString} {raw : Raw} (other : coll ≠ groupMembersColl) :
      (Org.put o coll key raw).Only ofCreation := only_perform other
  have seeds {coll key : GoString} {doc : Raw} (other : coll ≠ groupMembersColl) :
      (seed org coll key doc).Only ofCreation :=
    (only_perform trivial).bind fun _ => only_ite (fun _ => put other) fun _ => only_pure _
  have seedsOrg : (seedOrg org).Only ofCreation :=
    (seeds (by decide)).bind fun _ => (only_forM (fun _ => seeds (by decide)) _).bind fun _ =>
      only_forM (fun _ => seeds (by decide)) _
  have make : (createOrg org).Only ofCreation := only_perform trivial
  exact make.bind fun _ => only_refuseIf.bind fun _ => seedsOrg.bind fun _ =>
    (put (by decide)).bind fun _ =>
    (put (by decide)).bind fun _ => put (by decide)

theorem ofCreation.rows (creates : ofCreation c) :
    (exec c view).2.get org groupMembersColl key = view.get org groupMembersColl key := by
  cases c with
  | get => rfl
  | put o coll k val => exact get_put_of_ne creates
  | createOrg name => exact Proof.Store.get_createOrg view name org groupMembersColl key
  | _ => cases creates

theorem ofCreation.noted (creates : ofCreation c)
    (changed : (exec c view).2.get org groupsColl key ≠ view.get org groupsColl key) :
    0 < noteWrite c (exec c view).1 := by
  cases c with
  | get => exact absurd rfl changed
  | put o coll k val =>
    have here : coll = groupsColl := by
      by_contra other
      exact changed (get_put_of_ne other)
    simp [noteWrite, here]
  | createOrg name => exact absurd (Proof.Store.get_createOrg view name org groupsColl key) changed
  | _ => cases creates

def admins : GoString := lit "admins"

theorem leads_creation (store : Store) :
    Leads exec (fun _ => True) (createOrganizationWithKey env org fullName) store fun _ t =>
      (t.get org groupsColl admins).isSome := by
  refine leads_createOrganizationWithKey (fun _ => trivial) fun _ => ?_
  obtain ⟨t, ran, groups, -⟩ := seedOrg_defaults org (store.createOrg org).1
  have seeds : Leads exec (fun _ => True) (seedOrg org) (store.createOrg org).1 fun _ u => u = t :=
    leads_of_run ran rfl
  refine seeds.then ?_
  rintro _ u rfl
  have apart : aclsColl ≠ groupsColl ∧ clients ≠ groupsColl ∧ orgsColl ≠ groupsColl := by decide
  have kept : ((register env org fullName u).get org groupsColl admins).isSome := by
    rw [register, get_put_of_ne apart.1, get_put_of_ne apart.2.1, get_put_of_ne apart.2.2]
    exact groups admins (by decide)
  exact kept

def Vacant (org : GoString) (store : Store) : Prop :=
  store.hasOrg org = false ∧ ∀ key, store.get org groupsColl key = none

def Seeding (org : GoString) (s : OrgSystem) : Prop :=
  ∃ tx, s.tx = some tx ∧ ∃ key, tx.view.get org groupsColl key ≠ s.cache.store.get org groupsColl key

def Timely (org : GoString) (s : OrgSystem) (whole : GroupIndex) (x : CachedIndex) : Prop :=
  x.gen ≤ s.cache.groupsGen ∧ (Seeding org s → x.gen < s.cache.groupsGen) ∧
    (x.gen = s.cache.groupsGen → x.idx = whole ∨ Vacant org s.cache.store)

def committedDocs (org : GoString) (s : OrgSystem) : GroupIndex :=
  indexDocs (s.cache.store.range org groupsColl)

def committedIndex (org : GoString) (s : OrgSystem) : GroupIndex :=
  indexOf (s.cache.store.range org groupsColl) (s.cache.store.range org groupMembersColl)

def timely (org : GoString) (s : OrgSystem) : Promise where
  counted _ := False
  sampled gen := gen ≤ s.cache.groupsGen
  docs _ := Timely org s (committedDocs org s)
  rows _ := Timely org s (committedIndex org s)
  current := Timely org s (committedIndex org s)
  returned _ := True

def readsDocs : CacheGet → Bool
  | .sampled _ => true
  | _ => false

def readsWhileOpen (s : OrgSystem) : OrgAction → Bool
  | .get i => (s.cache.gets[i]?).any readsDocs && s.tx.isSome
  | _ => false

theorem not_seeding (closed : s.tx = none) : ¬ Seeding org s := by
  rintro ⟨tx, opened, -⟩
  cases closed.symm.trans opened

theorem timely_follows {i : Nat} (committed : readsWhileOpen s (.get i) = false) :
    (timely org s).Follows org s.cache i where
  samples := le_rfl
  reads gen at_ sampled := by
    have closed : s.tx = none := by simpa [readsWhileOpen, at_, readsDocs] using committed
    exact ⟨sampled, fun seeds => absurd seeds (not_seeding closed), fun _ => .inl rfl⟩
  adds x read := by
    refine ⟨read.1, read.2.1, fun current => (read.2.2 current).imp_left fun docs => ?_⟩
    rw [docs]
    rfl
  caches _ built := built
  returns _ _ _ := trivial
  reuses _ _ _ := trivial

structure Outlasts (org : GoString) (s t : OrgSystem) : Prop where
  later : s.cache.groupsGen ≤ t.cache.groupsGen
  seeding : Seeding org t → Seeding org s ∨ s.cache.groupsGen < t.cache.groupsGen
  same : Seeding org s ∨ Vacant org t.cache.store ∨ ¬ Vacant org s.cache.store ∧
    committedDocs org t = committedDocs org s ∧ committedIndex org t = committedIndex org s

theorem Timely.outlasts (timely : Timely org s whole x) (outlasts : Outlasts org s t)
    (same : committedDocs org t = committedDocs org s ∧ committedIndex org t = committedIndex org s → whole' = whole) :
    Timely org t whole' x := by
  obtain ⟨old, seeding, reads⟩ := timely
  refine ⟨old.trans outlasts.later, fun seeds => ?_, fun current => ?_⟩
  · rcases outlasts.seeding seeds with seeds | advanced
    · exact (seeding seeds).trans_le outlasts.later
    · exact old.trans_lt advanced
  · have before : x.gen = s.cache.groupsGen := le_antisymm old (current ▸ outlasts.later)
    rcases outlasts.same with seeds | vacant | ⟨occupied, unchanged⟩
    · exact absurd before (seeding seeds).ne
    · exact .inr vacant
    · rw [same unchanged]
      exact .inl ((reads before).resolve_right occupied)

theorem Outlasts.implies (outlasts : Outlasts org s t) : (timely org s).Implies (timely org t) where
  counted _ := id
  sampled _ sampled := le_trans sampled outlasts.later
  docs _ _ read := read.outlasts outlasts fun same => same.1
  rows _ _ built := built.outlasts outlasts fun same => same.2
  current _ cached := cached.outlasts outlasts fun same => same.2
  returned _ := id

theorem Outlasts.of_store (later : s.cache.groupsGen ≤ t.cache.groupsGen)
    (store : t.cache.store = s.cache.store)
    (seeding : Seeding org t → Seeding org s ∨ s.cache.groupsGen < t.cache.groupsGen) :
    Outlasts org s t where
  later := later
  seeding := seeding
  same := by
    by_cases vacant : Vacant org s.cache.store
    · exact .inr (.inl (store ▸ vacant))
    · exact .inr (.inr ⟨vacant, by simp [committedDocs, committedIndex, store]⟩)

def deletesOrg (org : GoString) (c : StoreCall) : Prop :=
  c = .delete global orgsColl org ∨ c = .deleteOrg org

structure Lasting (org : GoString) (s : OrgSystem) : Prop where
  creating : ∀ tx, s.tx = some tx → tx.rest.Only ofCreation ∧
    Leads exec (fun _ => True) tx.rest tx.view (fun _ t => (t.get org groupsColl admins).isSome) ∧
    ∀ key, tx.view.get org groupMembersColl key = s.cache.store.get org groupMembersColl key
  deleting : ∀ rest ∈ s.deletes, rest.Only (deletesOrg org)
  kept : (timely org s).Kept s.cache

theorem range_congr {coll : GoString}
    (same : ∀ key, view.get org coll key = store.get org coll key) :
    view.range org coll = store.range org coll := by
  have tables : view.objects org coll = store.objects org coll := Std.ExtTreeMap.ext_getElem? same
  rw [Store.MemoryBackend.range, tables, Store.MemoryBackend.range]

theorem exec_deletesOrg (deletes : deletesOrg org c) :
    noteWrite c (exec c store).1 = 0 ∧ (Vacant org (exec c store).2 ∨
      (exec c store).2.hasOrg org = store.hasOrg org ∧
        ∀ coll key, coll ≠ orgsColl → (exec c store).2.get org coll key = store.get org coll key) := by
  have apart : orgsColl ≠ groupsColl := by decide
  rcases deletes with rfl | rfl
  · have frame : Frame global ⟨[], [orgsColl]⟩ store (store.delete global orgsColl org).1 :=
      frame_delete (by simp) store
    refine ⟨by simp [noteWrite, apart], .inr ⟨frame.hasOrg org, fun coll key other => ?_⟩⟩
    rw [exec, get_delete, if_neg fun here => other here.2.1.symm]
  · refine ⟨rfl, ?_⟩
    cases there : store.hasOrg org with
    | true =>
      refine .inl ⟨?_, fun key => ?_⟩
      · rw [exec, Proof.Store.hasOrg_deleteOrg]
        simp
      · rw [exec, Proof.Store.get_deleteOrg, if_pos ⟨there, rfl⟩]
    | false =>
      refine .inr ⟨?_, fun coll key _ => ?_⟩
      · rw [exec, Proof.Store.hasOrg_deleteOrg, there, Bool.and_false]
      · rw [exec, Proof.Store.get_deleteOrg, if_neg (by simp [there])]

theorem outlasts_delete {deletes : List (Handler Response)} (deletesIt : deletesOrg org c)
    (closed : s.tx = none) :
    Outlasts org s { s with
      cache.store := (exec c s.cache.store).2
      cache.groupsGen := s.cache.groupsGen + noteWrite c (exec c s.cache.store).1
      deletes } where
  later := Nat.le_add_right _ _
  seeding seeds := absurd seeds (not_seeding closed)
  same := by
    have apart : groupsColl ≠ orgsColl ∧ groupMembersColl ≠ orgsColl := by decide
    rcases (@exec_deletesOrg org s.cache.store c deletesIt).2 with vacant | ⟨orgs, rows⟩
    · exact .inr (.inl vacant)
    · by_cases vacant : Vacant org s.cache.store
      · exact .inr (.inl ⟨orgs.trans vacant.1, fun key => (rows groupsColl key apart.1).trans (vacant.2 key)⟩)
      · refine .inr (.inr ⟨vacant, ?_⟩)
        simp only [committedDocs, committedIndex,
          range_congr (fun key => rows groupsColl key apart.1),
          range_congr (fun key => rows groupMembersColl key apart.2), and_self]

theorem Lasting.delete {i : Nat} {next : c.Result → Handler Response} (lasting : Lasting org s)
    (at_ : s.deletes[i]? = some (.call c next)) (closed : s.tx = none) :
    Lasting org { s with
      cache.store := (exec c s.cache.store).2
      cache.groupsGen := s.cache.groupsGen + noteWrite c (exec c s.cache.store).1
      deletes := s.deletes.set i (next (exec c s.cache.store).1) } := by
  obtain ⟨deletes, rest⟩ := lasting.deleting _ (List.mem_of_getElem? at_)
  refine ⟨fun tx opened => ?_, fun other mem => ?_,
    lasting.kept.moves (outlasts_delete deletes closed).implies rfl rfl rfl⟩
  · cases closed.symm.trans opened
  · rcases List.mem_or_eq_of_mem_set mem with mem | rfl
    · exact lasting.deleting other mem
    · exact rest _

theorem Lasting.begin (lasting : Lasting org s) :
    Lasting org { s with tx := some ⟨s.cache.store, createOrganizationWithKey env org fullName⟩ } := by
  refine ⟨fun tx opened => ?_, lasting.deleting,
    lasting.kept.moves (Outlasts.implies (.of_store le_rfl rfl ?_)) rfl rfl rfl⟩
  · obtain rfl := Option.some.inj opened
    exact ⟨only_createOrganizationWithKey, leads_creation s.cache.store, fun _ => rfl⟩
  · rintro ⟨tx, opened, key, changed⟩
    obtain rfl := Option.some.inj opened
    exact absurd rfl changed

theorem Lasting.work {next : c.Result → Handler Unit} (lasting : Lasting org s)
    (opened : s.tx = some ⟨view, .call c next⟩) :
    Lasting org { s with
      cache.groupsGen := s.cache.groupsGen + noteWrite c (exec c view).1
      tx := some ⟨(exec c view).2, next (exec c view).1⟩ } := by
  obtain ⟨⟨creates, rest⟩, leads, rows⟩ := lasting.creating _ opened
  refine ⟨fun tx opened => ?_, lasting.deleting,
    lasting.kept.moves (Outlasts.implies (.of_store (Nat.le_add_right _ _) rfl ?_)) rfl rfl rfl⟩
  · obtain rfl := Option.some.inj opened
    exact ⟨rest _, leads, fun key => creates.rows.trans (rows key)⟩
  · rintro ⟨tx, opened', key, changed⟩
    obtain rfl := Option.some.inj opened'
    by_cases before : view.get org groupsColl key = s.cache.store.get org groupsColl key
    · exact .inr (Nat.lt_add_of_pos_right (creates.noted fun same => changed (same.trans before)))
    · exact .inl ⟨_, opened, key, before⟩

theorem outlasts_commit {done : Unit} (lasting : Lasting org s)
    (opened : s.tx = some ⟨view, .ret done⟩) :
    Outlasts org s { s with cache.store := view, tx := none } where
  later := le_rfl
  seeding seeds := absurd seeds (not_seeding rfl)
  same := by
    obtain ⟨-, written, rows⟩ := lasting.creating _ opened
    -- a creation that changed no group found them all there, so the groups were not deleted before it
    by_cases seeds : Seeding org s
    · exact .inl seeds
    · have groups (key : GoString) : view.get org groupsColl key = s.cache.store.get org groupsColl key := by
        by_contra changed
        exact seeds ⟨_, opened, key, changed⟩
      refine .inr (.inr ⟨fun vacant => ?_, ?_⟩)
      · have there : (view.get org groupsColl admins).isSome := written
        rw [groups, vacant.2] at there
        cases there
      · simp only [committedDocs, committedIndex, range_congr groups, range_congr rows, and_self]

theorem Lasting.commit {done : Unit} (lasting : Lasting org s)
    (opened : s.tx = some ⟨view, .ret done⟩) :
    Lasting org { s with cache.store := view, tx := none } := by
  exact ⟨fun tx opened => (by cases opened), lasting.deleting,
    lasting.kept.moves (outlasts_commit lasting opened).implies rfl rfl rfl⟩

theorem Lasting.rollback (lasting : Lasting org s) : Lasting org { s with tx := none } := by
  exact ⟨fun tx opened => (by cases opened), lasting.deleting, lasting.kept.moves
    (Outlasts.implies (.of_store le_rfl rfl fun seeds => absurd seeds (not_seeding rfl))) rfl rfl rfl⟩

theorem Lasting.start (store : Store) (gen : Nat) : Lasting org (.start store gen) where
  creating _ opened := by cases opened
  deleting _ mem := by cases mem
  kept := .start store gen

theorem only_deleteOrganization : (deleteOrganization org).Only (deletesOrg org) := by
  refine ⟨.inl rfl, fun old => ?_⟩
  cases old with
  | none => exact only_stop _
  | some raw => exact ⟨.inr rfl, fun _ => only_pure _⟩

theorem Lasting.step {action : OrgAction} (lasting : Lasting org s)
    (committed : readsWhileOpen s action = false)
    (taken : s.step org action = some t) : Lasting org t := by
  cases action with
  | startGet =>
    obtain rfl := Option.some.inj taken
    exact ⟨lasting.creating, lasting.deleting,
      lasting.kept.startGet.moves (Outlasts.implies (.of_store le_rfl rfl .inl)) rfl rfl rfl⟩
  | get i =>
    obtain ⟨c, moved, rfl⟩ := Option.map_eq_some_iff.mp taken
    obtain ⟨store, gen⟩ := getStep_frame moved
    refine ⟨by simpa only [store] using lasting.creating, lasting.deleting,
      (lasting.kept.getStep (timely_follows committed) moved).imp (Outlasts.implies (.of_store gen.ge store ?_))⟩
    rintro ⟨tx, opened, key, changed⟩
    exact .inl ⟨tx, opened, key, store ▸ changed⟩
  | startDelete =>
    obtain rfl := Option.some.inj taken
    refine ⟨lasting.creating, fun rest mem => ?_, lasting.kept⟩
    rcases List.mem_append.mp mem with mem | mem
    · exact lasting.deleting rest mem
    · rw [List.mem_singleton.mp mem]
      exact only_deleteOrganization
  | delete i =>
    simp only [OrgSystem.step] at taken
    split at taken
    next at_ closed =>
      obtain rfl := Option.some.inj taken
      exact lasting.delete at_ closed
    next => cases taken
  | begin env fullName =>
    simp only [OrgSystem.step] at taken
    split at taken
    next closed =>
      obtain rfl := Option.some.inj taken
      exact lasting.begin
    next => cases taken
  | work =>
    simp only [OrgSystem.step] at taken
    split at taken
    next opened =>
      obtain rfl := Option.some.inj taken
      exact lasting.work opened
    next => cases taken
  | commit =>
    simp only [OrgSystem.step] at taken
    split at taken
    next opened =>
      obtain rfl := Option.some.inj taken
      exact lasting.commit opened
    next => cases taken
  | rollback =>
    simp only [OrgSystem.step] at taken
    split at taken
    next opened =>
      obtain rfl := Option.some.inj taken
      exact lasting.rollback
    next => cases taken

/-- If no rebuild reads the group documents while a creation is open, then once nothing is in flight and
the organization exists, a `get` returns what `buildGroupIndex` does. -/
theorem index_survives_recreation {gen : Nat}
    (run : Run (OrgSystem.step org) (fun u action => readsWhileOpen u action = false) (.start store gen) s)
    (quiescent : s.Quiescent) (there : s.cache.store.hasOrg org) :
    GetsYield org (fun idx => (buildGroupIndex org).run exec s.cache.store = (.ok idx, s.cache.store)) s.cache := by
  have lasting : Lasting org s :=
    run.invariant (.start store gen) fun _ _ _ lasting committed taken =>
    lasting.step committed taken
  refine getsYield quiescent.2.2 rfl fun p found => ?_
  obtain ⟨x, here, -, -, built⟩ := lasting.kept.current p found
  refine ⟨x, here, fun current => ?_⟩
  rcases built current with whole | vacant
  · rw [whole]
    rfl
  · cases vacant.1.symm.trans there

def seedsGroups : List OrgAction := .begin plainEnv acme :: List.replicate 13 .work

def finishes : List OrgAction := List.replicate 27 .work ++ [.commit]

def deletesAcme : List OrgAction := [.startDelete, .delete 0, .delete 0]

def builds (i : Nat) : List OrgAction := List.replicate 8 (.get i)

def pubkeyReaders : GoString := lit "public_key_read_access"

theorem remade_index_current : ∃ s :
    OrgSystem, s.Quiescent ∧ s.cache.store.hasOrg acme ∧ s.cache.gets.length = 1 ∧
      GetsYield acme (fun idx => (buildGroupIndex acme).run exec s.cache.store = (.ok idx, s.cache.store)) s.cache := by
  have closed : (Run.perform (OrgSystem.step acme) (fun u action => readsWhileOpen u action = false)
      (.start Store.newMemoryBackend 0)
      (seedsGroups ++ finishes ++ .startGet :: builds 0 ++ deletesAcme ++ seedsGroups ++ finishes)).any (fun s =>
        (s.tx.isNone ∧ (∀ delete ∈ s.deletes, OrgSystem.ended delete) ∧ ∀ get ∈ s.cache.gets, get.result.isSome) ∧
        s.cache.store.hasOrg acme ∧ s.cache.gets.length = 1) = true := by
    decide +kernel
  obtain ⟨s, performed, checked⟩ := (any_eq_true ..).mp closed
  obtain ⟨⟨open_, ended, done⟩, there, one⟩ := of_decide_eq_true checked
  have quiescent : s.Quiescent := ⟨Option.isNone_iff_eq_none.mp open_, ended, done⟩
  exact ⟨s, quiescent, there, one,
    index_survives_recreation (Run.of_perform .start performed) quiescent there⟩

theorem remade_index_stale : ∃ (s : OrgSystem) (d : GroupCache) (x : CachedIndex),
      Run (OrgSystem.step acme) always (.start Store.newMemoryBackend 0) s ∧ s.Quiescent ∧
        s.cache.store.hasOrg acme ∧
      Run (GroupCache.callStep acme) always s.cache d ∧ d.yielded s.cache.gets.length = some x ∧
      Listed s.cache.store acme pubkeyReaders .groups (lit "users") ∧
      ¬ Indexes x.idx pubkeyReaders .groups (lit "users") := by
  have closed : (Run.perform (OrgSystem.step acme) always (.start Store.newMemoryBackend 0)
      (seedsGroups ++ finishes ++ .startGet :: deletesAcme ++ seedsGroups ++ builds 0 ++ finishes)).any (fun s =>
        (s.tx.isNone ∧ (∀ delete ∈ s.deletes, OrgSystem.ended delete) ∧ ∀ get ∈ s.cache.gets, get.result.isSome) ∧
        s.cache.store.hasOrg acme ∧ Listed s.cache.store acme pubkeyReaders .groups (lit "users") ∧
        (Run.perform (GroupCache.callStep acme) always s.cache [.start, .next 1, .next 1]).any fun d =>
          (d.yielded s.cache.gets.length).any fun x => ¬ Indexes x.idx pubkeyReaders .groups (lit "users")) = true := by
    decide +kernel
  obtain ⟨s, performed, checked⟩ := (any_eq_true ..).mp closed
  obtain ⟨⟨open_, ended, done⟩, there, listed, more⟩ := of_decide_eq_true checked
  obtain ⟨d, gets, yields⟩ := (any_eq_true ..).mp more
  obtain ⟨x, yields, missing⟩ := (any_eq_true ..).mp yields
  exact ⟨s, d, x, Run.of_perform .start performed,
    ⟨Option.isNone_iff_eq_none.mp open_, ended, done⟩, there,
    Run.of_perform .start gets, yields, listed, of_decide_eq_true missing⟩

/-! ## Revocations as authorization sees them -/

open MembershipSystem (write step)

variable {org key group member : GoString} {kind : MemberKind} {raw : Raw} {store : Store} {s t : MembershipSystem}
  {x : CachedIndex} {i : Nat} {c : GroupCache} {action : MembershipAction} {excluding : Option Excluding}

def DocLists (store : Store) (org group : GoString) (kind : MemberKind)
    (member : GoString) : Prop :=
  ∃ raw, store.get org groupsColl group = some raw ∧ member ∈ (indexMembers raw).get kind

theorem indexes_indexDocs :
    Indexes (indexDocs (store.range org groupsColl)) group kind member ↔
      DocLists store org group kind member :=
  mem_docs

theorem indexes_indexRows {idx : GroupIndex} :
    Indexes (indexRows idx (store.range org groupMembersColl)) group kind member ↔
      Indexes idx group kind member ∨ ∃ key, RowAt store org key group kind member :=
  mem_rows

theorem indexes_rowAdded :
    Indexes (rowAdded key x).idx group kind member ↔
      Indexes x.idx group kind member ∨ splitMemberKey key = some (group, kind.name, member) :=
  mem_addRow

theorem docLists_congr {store' : Store}
    (same : ∀ name, store'.get org groupsColl name = store.get org groupsColl name) :
    DocLists store' org group kind member ↔ DocLists store org group kind member := by
  simp only [DocLists, same]

theorem listed_put_row :
    Listed (store.put org groupMembersColl key raw) org group kind member ↔
      Listed store org group kind member ∨ splitMemberKey key = some (group, kind.name, member) := by
  rw [listed_iff_rowAt, listed_iff_rowAt, or_assoc]
  refine or_congr (docLists_congr fun _ => get_put_of_ne (by decide)) ?_
  constructor
  · rintro ⟨key', stored, split⟩
    rw [get_put] at stored
    split_ifs at stored with same
    · exact .inr (same.2.2 ▸ split)
    · exact .inl ⟨key', stored, split⟩
  · rintro (⟨key', stored, split⟩ | split)
    · refine ⟨key', ?_, split⟩
      rw [get_put]
      split_ifs
      · rfl
      · exact stored
    · exact ⟨key, by simp [get_put], split⟩

theorem listed_delete_row :
    (Listed store org group kind member → Listed (store.delete org groupMembersColl key).1 org group kind member ∨
      splitMemberKey key = some (group, kind.name, member)) ∧
    (Listed (store.delete org groupMembersColl key).1 org group kind member → Listed store org group kind member) := by
  have docs : DocLists (store.delete org groupMembersColl key).1 org group kind member ↔
      DocLists store org group kind member :=
    docLists_congr fun _ => by rw [get_delete, if_neg fun here => absurd here.2.1 (by decide)]
  rw [listed_iff_rowAt, listed_iff_rowAt]
  constructor
  · rintro (doc | ⟨key', stored, split⟩)
    · exact .inl (.inl (docs.mpr doc))
    · by_cases same : key = key'
      · exact .inr (same ▸ split)
      · exact .inl (.inr ⟨key', by rwa [get_delete, if_neg (by simp [same])], split⟩)
  · rintro (doc | ⟨key', stored, split⟩)
    · exact .inl (docs.mp doc)
    · rw [get_delete] at stored
      split_ifs at stored with same
      · cases stored
      · exact .inr ⟨key', stored, split⟩

def Leaving (s : MembershipSystem) (group : GoString) (kind : MemberKind) (member : GoString) :
    Prop :=
  ∃ key, s.excluding = some (.deletedRow key) ∧ splitMemberKey key = some (group, kind.name, member)

def Arriving (s : MembershipSystem) (group : GoString) (kind : MemberKind) (member : GoString) :
    Prop :=
  ∃ key, .wrote key ∈ s.sharing ∧ splitMemberKey key = some (group, kind.name, member)

def Current (s : MembershipSystem) (x : CachedIndex) : Prop :=
  x.gen = s.cache.groupsGen ∧ s.excluding ≠ some .wroteDoc

def ReflectsDocs (org : GoString) (s : MembershipSystem) (x : CachedIndex) : Prop :=
  x.gen ≤ s.cache.groupsGen ∧ (Current s x → ∀ group kind member,
    Indexes x.idx group kind member ↔ DocLists s.cache.store org group kind member)

def Reflects (org : GoString) (s : MembershipSystem) (x : CachedIndex) : Prop :=
  x.gen ≤ s.cache.groupsGen ∧ (Current s x → ∀ group kind member,
    (Indexes x.idx group kind member → Listed s.cache.store org group kind member ∨ Leaving s group kind member) ∧
    (Listed s.cache.store org group kind member → Indexes x.idx group kind member ∨ Arriving s group kind member))

def accurate (org : GoString) (s : MembershipSystem) : Promise where
  counted _ := False
  sampled gen := gen ≤ s.cache.groupsGen
  docs _ := ReflectsDocs org s
  rows _ := Reflects org s
  current := Reflects org s
  returned _ := True

theorem accurate_follows : (accurate org s).Follows org s.cache i where
  samples := le_rfl
  reads _ _ sampled := ⟨sampled, fun _ _ _ _ => indexes_indexDocs⟩
  adds x read := by
    refine ⟨read.1, fun current group kind member => ?_⟩
    have same : Indexes (indexRows x.idx (s.cache.store.range org groupMembersColl)) group kind member ↔
        Listed s.cache.store org group kind member := by
      rw [indexes_indexRows, read.2 current, listed_iff_rowAt]
      rfl
    exact ⟨fun indexed => .inl (same.mp indexed), fun listed => .inl (same.mpr listed)⟩
  caches _ built := built
  returns _ _ _ := trivial
  reuses _ _ _ := trivial

structure Carried (org : GoString) (s t : MembershipSystem) : Prop where
  docs : ∀ group kind member,
    DocLists t.cache.store org group kind member ↔ DocLists s.cache.store org group kind member
  deletes : ∀ group kind member, Listed s.cache.store org group kind member →
    Listed t.cache.store org group kind member ∨ Leaving t group kind member
  leaving : ∀ group kind member, Leaving s group kind member → Leaving t group kind member
  adds : ∀ group kind member, Listed t.cache.store org group kind member →
    Listed s.cache.store org group kind member ∨ Arriving t group kind member
  arriving : ∀ group kind member, Arriving s group kind member → Arriving t group kind member

theorem Reflects.carried (reflects : Reflects org s x)
    (later : s.cache.groupsGen ≤ t.cache.groupsGen)
    (carried : Current t x → Current s x ∧ Carried org s t) : Reflects org t x := by
  refine ⟨reflects.1.trans later, fun current group kind member => ?_⟩
  obtain ⟨before, carried⟩ := carried current
  obtain ⟨sound, complete⟩ := reflects.2 before group kind member
  constructor
  · intro indexed
    rcases sound indexed with listed | leaving
    · exact carried.deletes group kind member listed
    · exact .inr (carried.leaving group kind member leaving)
  · intro listed
    rcases carried.adds group kind member listed with listed | arriving
    · exact (complete listed).imp_right (carried.arriving group kind member)
    · exact .inr arriving

theorem accurate_implies (later : s.cache.groupsGen ≤ t.cache.groupsGen)
    (carried : ∀ x, x.gen ≤ s.cache.groupsGen → Current t x → Current s x ∧ Carried org s t) :
    (accurate org s).Implies (accurate org t) where
  counted _ := id
  sampled _ sampled := le_trans sampled later
  docs _ x read := by
    refine ⟨read.1.trans later, fun current group kind member => ?_⟩
    obtain ⟨before, carried⟩ := carried x read.1 current
    rw [read.2 before, carried.docs]
  rows _ x reflects := reflects.carried later (carried x reflects.1)
  current x reflects := reflects.carried later (carried x reflects.1)
  returned _ := id

structure Orderly (org : GoString) (s : MembershipSystem) : Prop where
  alone : s.excluding ≠ none → s.sharing = []
  stored : ∀ key, .wrote key ∈ s.sharing → (s.cache.store.get org groupMembersColl key).isSome
  kept : (accurate org s).Kept s.cache

theorem Carried.of_store (same : t.cache.store = s.cache.store)
    (leaving : ∀ group kind member, Leaving s group kind member → Leaving t group kind member)
    (arriving : ∀ group kind member, Arriving s group kind member → Arriving t group kind member) :
    Carried org s t where
  docs _ _ _ := by rw [same]
  deletes _ _ _ listed := .inl (same ▸ listed)
  leaving := leaving
  adds _ _ _ listed := .inl (same ▸ listed)
  arriving := arriving

theorem not_leaving (none : ∀ key, s.excluding ≠ some (.deletedRow key)) :
    ¬ Leaving s group kind member := by
  rintro ⟨key, deleted, -⟩
  exact none key deleted

section

variable (orderly : Orderly org s)
include orderly

theorem Orderly.sections {sharing : List Sharing}
    (alone : excluding ≠ none → sharing = [])
    (before : s.excluding = none ∨ s.excluding = some .idle)
    (same : ∀ key, .wrote key ∈ sharing ↔ .wrote key ∈ s.sharing) :
    Orderly org { s with sharing, excluding } := by
  refine ⟨alone, fun key wrote => orderly.stored key ((same key).mp wrote),
    orderly.kept.imp (accurate_implies le_rfl fun x _ current => ⟨⟨current.1, ?_⟩, Carried.of_store rfl ?_ ?_⟩)⟩
  · rcases before with before | before <;> simp [before]
  · rintro group kind member ⟨key, deleted, -⟩
    rcases before with before | before <;> simp [before] at deleted
  · rintro group kind member ⟨key, wrote, split⟩
    exact ⟨key, (same key).mpr wrote, split⟩

theorem Orderly.advances (alone : excluding ≠ none → s.sharing = []) :
    Orderly org { s with cache.groupsGen := s.cache.groupsGen + 1, excluding } := by
  refine ⟨alone, orderly.stored,
    orderly.kept.moves (accurate_implies (Nat.le_succ _) fun x old current => ?_) rfl rfl rfl⟩
  -- no index there is has the new generation
  exact absurd current.1 (Nat.ne_of_lt (Nat.lt_succ_of_le old))

theorem Orderly.wroteDoc (alone : s.sharing = []) :
    Orderly org (s.write store .wroteDoc) := by
  refine ⟨fun _ => alone, fun key wrote => ?_,
    orderly.kept.moves (accurate_implies le_rfl fun x _ current => absurd rfl current.2) rfl rfl rfl⟩
  rw [write, alone] at wrote
  cases wrote

theorem Orderly.addMember (at_ : s.sharing[i]? = some .idle) :
    Orderly org { s with
      cache.store := s.cache.store.put org groupMembersColl key raw
      sharing := s.sharing.set i (.wrote key) } := by
  have inside := (List.getElem?_eq_some_iff.mp at_).1
  have others {key' : GoString} (wrote : .wrote key' ∈ s.sharing) :
      .wrote key' ∈ s.sharing.set i (.wrote key) := by
    obtain ⟨j, here⟩ := List.mem_iff_getElem?.mp wrote
    refine List.mem_iff_getElem?.mpr ⟨j, ?_⟩
    rw [List.getElem?_set_ne, here]
    rintro rfl
    cases here.symm.trans at_
  refine ⟨fun held => ?_, fun key' wrote => ?_,
    orderly.kept.moves (accurate_implies le_rfl fun x _ current => ⟨current, ?_⟩) rfl rfl rfl⟩
  · rw [orderly.alone held] at at_
    cases at_
  · rw [get_put]
    split_ifs with same
    · rfl
    · rcases List.mem_or_eq_of_mem_set wrote with wrote | wrote
      · exact orderly.stored key' wrote
      · exact absurd ⟨rfl, rfl, (Sharing.wrote.inj wrote).symm⟩ same
  · exact {
      docs := fun _ _ _ => docLists_congr fun _ => get_put_of_ne (by decide)
      deletes := fun _ _ _ listed => .inl (listed_put_row.mpr (.inl listed))
      leaving := fun _ _ _ => id
      adds := fun _ _ _ listed => (listed_put_row.mp listed).imp_right fun split =>
        ⟨key, List.mem_set inside _, split⟩
      arriving := fun _ _ _ ⟨key', wrote, split⟩ => ⟨key', others wrote, split⟩ }

theorem Orderly.deletedRow (idle : s.excluding = some .idle) :
    Orderly org (s.write (s.cache.store.delete org groupMembersColl key).1 (.deletedRow key)) := by
  have alone : s.sharing = [] := orderly.alone (by rw [idle]; simp)
  refine ⟨fun _ => alone, fun key wrote => ?_,
    orderly.kept.moves (accurate_implies le_rfl fun x _ current => ⟨⟨current.1, by simp [idle]⟩, ?_⟩) rfl rfl rfl⟩
  · rw [write, alone] at wrote
    cases wrote
  · exact {
      docs := fun _ _ _ => docLists_congr fun _ => by
        rw [write, get_delete, if_neg fun here => absurd here.2.1 (by decide)]
      deletes := fun _ _ _ listed => (listed_delete_row.1 listed).imp_right fun split =>
        ⟨key, rfl, split⟩
      leaving := fun _ _ _ leaving => absurd leaving (not_leaving (by simp [idle]))
      adds := fun _ _ _ listed => .inl (listed_delete_row.2 listed)
      arriving := fun _ _ _ => id }

theorem Orderly.deliverAdded
    (at_ : s.sharing[i]? = some (.wrote key)) (taken : s.cache.observe key false = some c) :
    Orderly org { s with cache := c, sharing := s.sharing.set i .idle } := by
  obtain ⟨store, gen, -⟩ := observe_frame taken
  have others {key' : GoString} (wrote : .wrote key' ∈ s.sharing) (other : key' ≠ key) :
      .wrote key' ∈ s.sharing.set i .idle := by
    obtain ⟨j, here⟩ := List.mem_iff_getElem?.mp wrote
    refine List.mem_iff_getElem?.mpr ⟨j, ?_⟩
    rw [List.getElem?_set_ne, here]
    rintro rfl
    exact other (Sharing.wrote.inj (Option.some.inj (here.symm.trans at_)))
  have current {x : CachedIndex} (later : Current { s with cache := c, sharing := s.sharing.set i .idle } x) :
      Current s x := ⟨later.1.trans gen, later.2⟩
  refine ⟨fun held => ?_, fun key' wrote => ?_,
    orderly.kept.added taken (fun split => ?_) ?_ (fun x reflects => ?_) ?_⟩
  · rw [orderly.alone held] at at_
    cases at_
  · rw [store]
    exact orderly.stored key' ((List.mem_or_eq_of_mem_set wrote).resolve_right (by simp))
  · refine accurate_implies gen.ge fun x _ later =>
      ⟨current later, Carried.of_store store (fun _ _ _ => id) ?_⟩
    rintro group kind member ⟨key', wrote, split'⟩
    refine ⟨key', others wrote ?_, split'⟩
    rintro rfl
    cases split.symm.trans split'
  · exact ⟨fun _ => id, fun _ never => never.elim, fun _ never => never.elim⟩
  · refine ⟨reflects.1.trans gen.ge, fun later group kind member => ?_⟩
    obtain ⟨sound, complete⟩ := reflects.2 (current later) group kind member
    rw [store, indexes_rowAdded]
    constructor
    · rintro (indexed | split)
      · exact sound indexed
      · have stored := orderly.stored key (List.mem_of_getElem? at_)
        exact .inl (listed_iff_rowAt.mpr (.inr ⟨key, stored, split⟩))
    · intro listed
      rcases complete listed with indexed | ⟨key', wrote, split⟩
      · exact .inl (.inl indexed)
      · by_cases same : key' = key
        · exact .inl (.inr (same ▸ split))
        · exact .inr ⟨key', others wrote same, split⟩
  · exact fun _ never => never.elim

theorem Orderly.deliverDeleted
    (deleted : s.excluding = some (.deletedRow key)) (taken : s.cache.observe key true = some c) :
    Orderly org { s with cache := c, excluding := some .idle } := by
  obtain ⟨store, gen, -⟩ := observe_frame taken
  have alone : s.sharing = [] := orderly.alone (by rw [deleted]; simp)
  refine ⟨fun _ => alone, fun key wrote => ?_, orderly.kept.deleted taken (fun split => ?_) ?_⟩
  · rw [alone] at wrote
    cases wrote
  · refine accurate_implies gen.ge fun x _ later =>
      ⟨⟨later.1.trans gen, by simp [deleted]⟩, Carried.of_store store ?_ fun _ _ _ => id⟩
    rintro group kind member ⟨key', deleted', split'⟩
    obtain rfl := Excluding.deletedRow.inj (Option.some.inj (deleted.symm.trans deleted'))
    cases split.symm.trans split'
  · exact ⟨fun _ => id, fun _ never => never.elim, fun _ never => never.elim⟩

end

theorem Orderly.start (store : Store) (gen : Nat) : Orderly org (.start store gen) where
  alone held := absurd rfl held
  stored _ wrote := by cases wrote
  kept := .start store gen

theorem Orderly.step (orderly : Orderly org s) (taken : s.step org action = some t) :
    Orderly org t := by
  cases action with
  | startGet =>
    obtain rfl := Option.some.inj taken
    exact ⟨orderly.alone, orderly.stored,
      orderly.kept.startGet.moves (accurate_implies le_rfl fun _ _ current =>
      ⟨current, .of_store rfl (fun _ _ _ => id) fun _ _ _ => id⟩) rfl rfl rfl⟩
  | get i =>
    obtain ⟨c, moved, rfl⟩ := Option.map_eq_some_iff.mp taken
    obtain ⟨store, gen⟩ := getStep_frame moved
    refine ⟨orderly.alone, fun key wrote => store ▸ orderly.stored key wrote,
      (orderly.kept.getStep accurate_follows moved).imp (accurate_implies gen.ge fun x _ later => ?_)⟩
    exact ⟨⟨later.1.trans gen, later.2⟩, Carried.of_store store (fun _ _ _ => id) fun _ _ _ => id⟩
  | rlock =>
    obtain ⟨free, rfl⟩ := Option.ite_none_right_eq_some.mp taken |>.imp_right Option.some.inj
    have free := Option.isNone_iff_eq_none.mp free
    exact orderly.sections (fun held => absurd free held) (.inl free) (by simp)
  | addMember i key raw =>
    simp only [step] at taken
    split at taken
    next at_ =>
      obtain rfl := Option.some.inj taken
      exact orderly.addMember at_
    next => cases taken
  | deliverAdded i =>
    simp only [step] at taken
    split at taken
    next key at_ =>
      obtain ⟨c, observed, rfl⟩ := Option.map_eq_some_iff.mp taken
      exact orderly.deliverAdded at_ observed
    next => cases taken
  | runlock i =>
    simp only [step] at taken
    split at taken
    next at_ =>
      obtain rfl := Option.some.inj taken
      refine orderly.sections (fun held => ?_) ?_ fun key => ?_
      · rw [orderly.alone held]
        rfl
      · by_cases held : s.excluding = none
        · exact .inl held
        · rw [orderly.alone held] at at_
          cases at_
      · rw [List.mem_eraseIdx_iff_getElem?, List.mem_iff_getElem?]
        refine exists_congr fun j => and_iff_right_of_imp ?_
        rintro here rfl
        cases here.symm.trans at_
    next => cases taken
  | lock =>
    obtain ⟨free, rfl⟩ := Option.ite_none_right_eq_some.mp taken |>.imp_right Option.some.inj
    simp only [Bool.and_eq_true, Option.isNone_iff_eq_none, List.isEmpty_iff] at free
    exact orderly.sections (fun _ => free.2) (.inl free.1) (by simp)
  | putGroup name raw =>
    simp only [step] at taken
    split at taken
    next idle =>
      obtain rfl := Option.some.inj taken
      exact orderly.wroteDoc (orderly.alone (by simp [idle]))
    next => cases taken
  | deleteGroup name =>
    simp only [step] at taken
    split at taken
    next idle =>
      split at taken
      · obtain rfl := Option.some.inj taken
        exact orderly.wroteDoc (orderly.alone (by simp [idle]))
      · obtain rfl := Option.some.inj taken
        exact orderly
    next => cases taken
  | noteWrite =>
    simp only [step] at taken
    split at taken
    next written =>
      obtain rfl := Option.some.inj taken
      exact orderly.advances fun _ => orderly.alone (by simp [written])
    next => cases taken
  | deleteMember key =>
    simp only [step] at taken
    split at taken
    next idle =>
      split at taken
      next store old deleted =>
        obtain rfl := Option.some.inj taken
        have here : store = (s.cache.store.delete org groupMembersColl key).1 := by rw [deleted]
        exact here ▸ orderly.deletedRow idle
      · obtain rfl := Option.some.inj taken
        exact orderly
    next => cases taken
  | deliverDeleted =>
    simp only [step] at taken
    split at taken
    next key deleted =>
      obtain ⟨c, observed, rfl⟩ := Option.map_eq_some_iff.mp taken
      exact orderly.deliverDeleted deleted observed
    next => cases taken
  | unlock =>
    simp only [step] at taken
    split at taken
    next idle =>
      obtain rfl := Option.some.inj taken
      exact orderly.sections (fun held => absurd rfl held) (.inr idle) (by simp)
    next => cases taken
  | noteElsewhere =>
    obtain rfl := Option.some.inj taken
    exact orderly.advances orderly.alone

theorem orderly_of_run {gen : Nat} (run : Run (step org) always (.start store gen) s) :
    Orderly org s :=
  run.invariant (.start store gen) fun _ _ _ orderly _ taken => orderly.step taken

def absent (n gen : Nat) (group : GoString) (kind : MemberKind) (member : GoString) : Promise where
  counted i := n ≤ i
  sampled sampled := sampled ≤ gen
  docs i x := x.gen ≤ gen ∧ (x.gen = gen ∨ n ≤ i → ¬ Indexes x.idx group kind member)
  rows i x := x.gen ≤ gen ∧ (x.gen = gen ∨ n ≤ i → ¬ Indexes x.idx group kind member)
  current x := x.gen ≤ gen ∧ (x.gen = gen → ¬ Indexes x.idx group kind member)
  returned x := ¬ Indexes x.idx group kind member

variable {n : Nat}

theorem absent_follows (missing : ¬ Listed c.store org group kind member) :
    (absent n c.groupsGen group kind member).Follows org c i := by
  have nowhere := fun lists => missing (listed_iff_rowAt.mpr lists)
  exact {
    samples := le_rfl
    reads := fun _ _ sampled => ⟨sampled, fun _ lists => nowhere (.inl (indexes_indexDocs.mp lists))⟩
    adds := fun _ read => ⟨read.1, fun counts lists =>
      (indexes_indexRows.mp lists).elim (read.2 counts) fun row => nowhere (.inr row)⟩
    caches := fun _ built => ⟨built.1, fun current => built.2 (.inl current)⟩
    returns := fun _ counts built => built.2 (.inr counts)
    reuses := fun _ cached current => cached.2 current }

theorem absent_implies {gen gen' : Nat} (later : gen ≤ gen') :
    (absent n gen group kind member).Implies (absent n gen' group kind member) := by
  have back {x : CachedIndex} (old : x.gen ≤ gen) (same : x.gen = gen') : x.gen = gen :=
    le_antisymm old (same ▸ later)
  exact {
    counted := fun _ => id
    sampled := fun _ sampled => le_trans sampled later
    docs := fun _ _ read => ⟨read.1.trans later, fun counts => read.2 (counts.imp_left (back read.1))⟩
    rows := fun _ _ built =>
      ⟨built.1.trans later, fun counts => built.2 (counts.imp_left (back built.1))⟩
    current := fun _ cached => ⟨cached.1.trans later, fun same => cached.2 (back cached.1 same)⟩
    returned := fun _ => id }

theorem step_cache (taken : s.step org action = some t) :
    t.cache = s.cache.startGet ∨ (∃ i, s.cache.getStep org i = some t.cache) ∨
      (∃ key, .wrote key ∈ s.sharing ∧ s.cache.observe key false = some t.cache) ∨
      (∃ key, s.cache.observe key true = some t.cache) ∨
      ∃ store gen, s.cache.groupsGen ≤ gen ∧ t.cache = { s.cache with store, groupsGen := gen } := by
  cases action with
  | startGet =>
    obtain rfl := Option.some.inj taken
    exact .inl rfl
  | get i =>
    obtain ⟨c, moved, rfl⟩ := Option.map_eq_some_iff.mp taken
    exact .inr (.inl ⟨i, moved⟩)
  | deliverAdded i =>
    simp only [step] at taken
    split at taken
    next key at_ =>
      obtain ⟨c, observed, rfl⟩ := Option.map_eq_some_iff.mp taken
      exact .inr (.inr (.inl ⟨key, List.mem_of_getElem? at_, observed⟩))
    next => cases taken
  | deliverDeleted =>
    simp only [step] at taken
    split at taken
    next key deleted =>
      obtain ⟨c, observed, rfl⟩ := Option.map_eq_some_iff.mp taken
      exact .inr (.inr (.inr (.inl ⟨key, observed⟩)))
    next => cases taken
  | noteElsewhere =>
    obtain rfl := Option.some.inj taken
    exact .inr (.inr (.inr (.inr ⟨_, _, Nat.le_succ _, rfl⟩)))
  | _ =>
    refine .inr (.inr (.inr (.inr ?_)))
    simp only [step, write] at taken
    split at taken
    all_goals try split at taken
    all_goals first
      | (obtain rfl := Option.some.inj taken; exact ⟨_, _, by simp, rfl⟩)
      | cases taken

theorem absent_step (orderly : Orderly org s)
    (missing : ¬ Listed s.cache.store org group kind member)
    (kept : (absent n s.cache.groupsGen group kind member).Kept s.cache)
    (taken : s.step org action = some t) :
    (absent n t.cache.groupsGen group kind member).Kept t.cache := by
  obtain same | ⟨i, moved⟩ | ⟨key, wrote, observed⟩ | ⟨key, observed⟩ | ⟨store, gen, later, same⟩ :=
    step_cache taken
  · rw [same]
    exact kept.startGet
  · rw [(getStep_frame moved).2]
    exact kept.getStep (absent_follows missing) moved
  · -- the row whose event is delivered is still stored, so it is not the revoked one
    have other : splitMemberKey key ≠ some (group, kind.name, member) := fun split =>
      missing (listed_iff_rowAt.mpr (.inr ⟨key, orderly.stored key wrote, split⟩))
    have still {x : CachedIndex} (before : ¬ Indexes x.idx group kind member) :
        ¬ Indexes (rowAdded key x).idx group kind member := fun lists =>
      (indexes_rowAdded.mp lists).elim before other
    rw [(observe_frame observed).2.1]
    exact kept.added observed (fun _ => absent_implies le_rfl) ⟨fun _ => id, fun _ _ _ => id,
      fun _ _ _ => id⟩
      (fun x cached => ⟨cached.1, fun current => still (cached.2 current)⟩) fun _ _ x => still
  · rw [(observe_frame observed).2.1]
    exact kept.deleted observed (fun _ => absent_implies le_rfl) ⟨fun _ => id, fun _ _ _ => id,
      fun _ _ _ => id⟩
  · rw [same]
    exact kept.moves (absent_implies later) rfl rfl rfl

theorem Orderly.absent (orderly : Orderly org s) (closed : s.excluding = none)
    (missing : ¬ Listed s.cache.store org group kind member) :
    (absent s.cache.gets.length s.cache.groupsGen group kind member).Kept s.cache := by
  have reflected {x : CachedIndex} (reflects : Reflects org s x) (current : x.gen = s.cache.groupsGen) :
      ¬ Indexes x.idx group kind member := fun lists =>
    ((reflects.2 ⟨current, by simp [closed]⟩ group kind member).1 lists).elim missing (not_leaving (by simp [closed]))
  refine ⟨fun p found => ?_, fun i get here => ?_⟩
  · obtain ⟨x, there, reflects⟩ := orderly.kept.current p found
    exact ⟨x, there, reflects.1, reflected reflects⟩
  · have early : ¬ s.cache.gets.length ≤ i := Nat.not_le.mpr (List.getElem?_eq_some_iff.mp here).1
    have promised := orderly.kept.gets i get here
    cases get with
    | looked found =>
      cases found with
      | none => trivial
      | some p => exact fun counts => absurd counts early
    | returned p => exact fun counts => absurd counts early
    | sampled gen => exact promised
    | readDocs x =>
      refine ⟨promised.1, fun counts lists => missing (listed_iff_rowAt.mpr (.inl ?_))⟩
      exact (promised.2 ⟨counts.resolve_right early, by simp [closed]⟩ group kind member).mp lists
    | readRows x => exact ⟨promised.1, fun counts => reflected promised (counts.resolve_right early)⟩
    | _ => trivial

/-- A `get` that starts once a revocation has returned yields an index without the membership if nobody
grants it again before; with nothing in flight, a `get` yields what the store lists. -/
theorem revocation_visible {gen : Nat} (run : Run (step org) always (.start store gen) s) :
    (s.excluding = none → ¬ Listed s.cache.store org group kind member → ∀ t i x,
      Run (step org) (fun u _ => ¬ Listed u.cache.store org group kind member) s t →
      s.cache.gets.length ≤ i → t.cache.yielded i = some x → ¬ Indexes x.idx group kind member) ∧
    (s.Quiescent → GetsYield org (fun idx => ∀ group kind member,
      Indexes idx group kind member ↔ Listed s.cache.store org group kind member) s.cache) := by
  have orderly := orderly_of_run run
  constructor
  · intro closed missing t i x window counts yields
    have kept : Orderly org t ∧
        (absent s.cache.gets.length t.cache.groupsGen group kind member).Kept t.cache := by
      refine @Run.invariant _ _ _ _ _ _ (fun t => Orderly org t ∧
        (absent s.cache.gets.length t.cache.groupsGen group kind member).Kept t.cache) window
        ⟨orderly, orderly.absent closed missing⟩ ?_
      exact fun u v action before missing taken =>
        ⟨before.1.step taken, absent_step before.1 missing before.2 taken⟩
    exact kept.2.yielded counts yields
  · rintro ⟨shared, closed, done⟩
    refine getsYield done (fun _ _ _ => listed_iff_indexOf.symm) fun p found => ?_
    obtain ⟨x, here, reflects⟩ := orderly.kept.current p found
    refine ⟨x, here, fun current group kind member => ?_⟩
    obtain ⟨sound, complete⟩ := reflects.2 ⟨current, by simp [closed]⟩ group kind member
    refine ⟨fun lists => (sound lists).resolve_right (not_leaving (by simp [closed])),
      fun listed => (complete listed).resolve_right ?_⟩
    rintro ⟨key, wrote, -⟩
    rw [shared] at wrote
    cases wrote

def aliceKey : GoString := memberKey ops MemberKind.users.name alice

def aliceInOps : Store :=
  Store.newMemoryBackend.put acme groupMembersColl aliceKey (.document (.object []))

def rebuilds (i : Nat) : List MembershipAction := List.replicate 8 (.get i)

def revokesAlice : List MembershipAction :=
  [.lock, .deleteMember aliceKey, .deliverDeleted, .unlock]

theorem alice_revoked :
    ∃ (s t : MembershipSystem) (x y : CachedIndex), s.cache.yielded 0 = some x ∧
      Indexes x.idx ops .users alice ∧
      s.excluding = none ∧ t.cache.yielded 1 = some y ∧ ¬ Indexes y.idx ops .users alice ∧
      GetsYield acme (fun idx => ∀ group kind member,
        Indexes idx group kind member ↔ Listed s.cache.store acme group kind member) s.cache := by
  have closed : (Run.perform (step acme) always (.start aliceInOps 0)
      (.startGet :: rebuilds 0 ++ revokesAlice)).any (fun s =>
        (s.cache.yielded 0).any (fun x => Indexes x.idx ops .users alice) ∧
        (s.sharing = [] ∧ s.excluding = none ∧ ∀ get ∈ s.cache.gets, get.result.isSome) ∧
        s.cache.gets.length = 1 ∧ ¬ Listed s.cache.store acme ops .users alice ∧
        (Run.perform (step acme) (fun u _ => ¬ Listed u.cache.store acme ops .users alice) s
          (.startGet :: rebuilds 1)).any fun t => (t.cache.yielded 1).isSome) = true := by
    decide +kernel
  obtain ⟨s, revokes, checked⟩ := (any_eq_true ..).mp closed
  obtain ⟨before, done, one, missing, more⟩ := of_decide_eq_true checked
  obtain ⟨x, yields, lists⟩ := (any_eq_true ..).mp before
  obtain ⟨t, gets, ended⟩ := (any_eq_true ..).mp more
  obtain ⟨y, yields'⟩ := Option.isSome_iff_exists.mp ended
  have visible := @revocation_visible acme ops alice .users _ _ _ (Run.of_perform .start revokes)
  exact ⟨s, t, x, y, yields, of_decide_eq_true lists, done.2.1, yields',
    visible.1 done.2.1 missing t 1 y (Run.of_perform .start gets) one.le yields', visible.2 done⟩

theorem granted_while_getting :
    ∃ (s t : MembershipSystem) (x : CachedIndex),
      Run (step acme) always (.start aliceInOps 0) s ∧ s.excluding = none ∧
      ¬ Listed s.cache.store acme ops .users alice ∧
      Run (step acme) always { s with cache := s.cache.startGet } t ∧
      t.cache.yielded s.cache.gets.length = some x ∧ Indexes x.idx ops .users alice := by
  have closed : (Run.perform (step acme) always (.start aliceInOps 0) revokesAlice).any (fun s =>
      s.excluding = none ∧ ¬ Listed s.cache.store acme ops .users alice ∧
      (Run.perform (step acme) always { s with cache := s.cache.startGet }
        ([.rlock, .addMember 0 aliceKey (.document (.object []))] ++ rebuilds 0)).any fun t =>
        (t.cache.yielded s.cache.gets.length).any fun x => Indexes x.idx ops .users alice) = true := by
    decide +kernel
  obtain ⟨s, revokes, checked⟩ := (any_eq_true ..).mp closed
  obtain ⟨ended, missing, more⟩ := of_decide_eq_true checked
  obtain ⟨t, gets, yields⟩ := (any_eq_true ..).mp more
  obtain ⟨x, yields, lists⟩ := (any_eq_true ..).mp yields
  exact ⟨s, t, x, Run.of_perform .start revokes, ended, missing, Run.of_perform .start gets, yields,
    of_decide_eq_true lists⟩

end CincServer.Proof.Api
