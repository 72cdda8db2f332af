import CincServer.Lib.Cascade
import CincServer.Proof.Api.AclLifetime
import CincServer.Proof.Json.Normalize

/-!
# The checksums of a stored manifest
-/

namespace CincServer.Proof.Api
open CincServer.Api CincServer.Json Proof.Decoding Go Lib

variable {sum name : GoString} {members obj : Members} {v : Value}

theorem membersRepeat_cons (distinct : membersRepeat ((name, v) :: members) = false) :
    name ∉ members.map Prod.fst ∧ hasRepeatedNames v = false ∧ membersRepeat members = false := by
  simpa [membersRepeat, and_assoc] using distinct

theorem nodup_names (distinct : membersRepeat members = false) : (members.map Prod.fst).Nodup := by
  induction members with
  | nil => exact List.nodup_nil
  | cons member rest ih =>
    obtain ⟨fresh, -, others⟩ := membersRepeat_cons distinct
    exact List.nodup_cons.mpr ⟨fresh, ih others⟩

theorem mem_ownChecksum :
    sum ∈ ownChecksum members ↔ get members (lit "checksum") = some (.string sum) := by
  unfold ownChecksum
  split
  · next found => simp [found, eq_comm]
  · next none => simpa using fun found => none sum found

theorem mem_memberChecksums :
    sum ∈ memberChecksums members ↔ ∃ member ∈ members, sum ∈ checksums member.2 := by
  induction members with
  | nil => simp [memberChecksums]
  | cons member rest ih => simp [memberChecksums, ih]

theorem mem_checksums_object : sum ∈ checksums (.object members) ↔
    get members (lit "checksum") = some (.string sum) ∨
      ∃ member ∈ members, sum ∈ checksums member.2 := by
  rw [checksums, List.mem_append, mem_ownChecksum, mem_memberChecksums]

theorem mem_canonicalMembers (distinct : (members.map Prod.fst).Nodup) :
    (name, v) ∈ (canonicalMembers ∅ members).toList ↔ ∃ old, (name, old) ∈ members ∧
      canonical old = v := by
  rw [Std.ExtTreeMap.mem_toList_iff_getElem?_eq_some,
    getElem?_canonicalMembers distinct (Proof.Json.holds_get distinct name), Option.map_eq_some_iff]
  simp only [← Proof.Json.holds_get distinct name _]

theorem canonical_eq_string : canonical v = .string sum ↔ v = .string sum := by
  cases v <;> simp [canonical]

theorem get_canonicalMembers_string (distinct : (members.map Prod.fst).Nodup) :
    get (canonicalMembers ∅ members).toList name = some (.string sum) ↔
      get members name = some (.string sum) := by
  rw [← Proof.Json.holds_get (nodup_toList_fst _) name, mem_canonicalMembers distinct,
    ← Proof.Json.holds_get distinct name]
  simp [canonical_eq_string]

mutual

theorem mem_checksums_canonical (sum : GoString) : (v : Value) → hasRepeatedNames v = false →
    (sum ∈ checksums (canonical v) ↔ sum ∈ checksums v)
  | .null, _ | .bool _, _ | .number _, _ | .string _, _ => by simp [canonical]
  | .array elems, distinct => by
    rw [hasRepeatedNames] at distinct
    rw [canonical, checksums, checksums, mem_elemChecksums_canonical sum elems distinct]
  | .object members, distinct => by
    rw [hasRepeatedNames] at distinct
    have names := nodup_names distinct
    have each := mem_memberChecksums_canonical sum members distinct
    rw [canonical, mem_checksums_object, mem_checksums_object, get_canonicalMembers_string names]
    refine or_congr_right ⟨?_, ?_⟩
    · rintro ⟨⟨name, v⟩, mem, listed⟩
      obtain ⟨old, stored, rfl⟩ := (mem_canonicalMembers names).mp mem
      exact ⟨(name, old), stored, (each _ stored).mp listed⟩
    · rintro ⟨⟨name, old⟩, stored, listed⟩
      exact ⟨(name, canonical old), (mem_canonicalMembers names).mpr ⟨old, stored, rfl⟩,
        (each _ stored).mpr listed⟩

theorem mem_elemChecksums_canonical (sum : GoString) :
    (elems : List Value) → elemsRepeat elems = false →
    (sum ∈ elemChecksums (canonicalElems elems) ↔ sum ∈ elemChecksums elems)
  | [], _ => by rw [canonicalElems]
  | v :: rest, distinct => by
    simp only [elemsRepeat, Bool.or_eq_false_iff] at distinct
    rw [canonicalElems, elemChecksums, elemChecksums, List.mem_append, List.mem_append,
      mem_checksums_canonical sum v distinct.1, mem_elemChecksums_canonical sum rest distinct.2]

theorem mem_memberChecksums_canonical (sum : GoString) :
    (members : Members) → membersRepeat members = false →
    ∀ member ∈ members, (sum ∈ checksums (canonical member.2) ↔ sum ∈ checksums member.2)
  | [], _ => by simp
  | (name, v) :: rest, distinct => by
    obtain ⟨-, value, others⟩ := membersRepeat_cons distinct
    rw [List.forall_mem_cons]
    exact ⟨mem_checksums_canonical sum v value, mem_memberChecksums_canonical sum rest others⟩

end

def references : Raw → List GoString
  | .document doc => checksums doc
  | .malformed _ => []

def Readable (raw : Raw) : Prop :=
  ∃ obj, raw = storedObject obj ∧ membersRepeat obj = false ∧ membersInRange obj

theorem manifestChecksums_eq (distinct : membersRepeat obj = false) :
    manifestChecksums obj = references (storedObject obj) := by
  rw [manifestChecksums,
    (Proof.Json.firstOf_eq_self obj []).mpr (by simpa [Proof.Json.Clashes] using distinct)]
  rfl

theorem mem_storedChecksums (distinct : membersRepeat obj = false) {sums : List GoString}
    (reads : storedChecksums (storedObject obj) = some sums) :
    sum ∈ sums ↔ sum ∈ references (storedObject obj) := by
  rw [storedChecksums, storedObject, unmarshalMap, Option.map_eq_some_iff] at reads
  obtain ⟨decoded, within, rfl⟩ := reads
  obtain ⟨-, same⟩ := Option.ite_none_right_eq_some.mp within
  obtain rfl := Option.some.inj same
  have listed := mem_checksums_canonical sum (.object obj) (by rwa [hasRepeatedNames])
  rwa [canonical] at listed

theorem storedChecksums_readable {raw : Raw} (readable : Readable raw) :
    ∃ sums, storedChecksums raw = some sums ∧ ∀ sum, sum ∈ sums ↔ sum ∈ references raw := by
  obtain ⟨obj, rfl, distinct, within⟩ := readable
  have reads : storedChecksums (storedObject obj) =
      some (checksums (.object (canonicalMembers ∅ obj).toList)) := by
    rw [storedChecksums, storedObject, unmarshalMap, if_pos within]
    rfl
  exact ⟨_, reads, fun sum => mem_storedChecksums distinct reads⟩

theorem parseFloat_appendNumber {literal out : GoString} (within : (parseFloat literal).isSome)
    (writes : Chefjson.appendNumber literal = some out) : (parseFloat out).isSome := by
  unfold Chefjson.appendNumber at writes
  split_ifs at writes with integer zero
  · obtain rfl := Option.some.inj writes
    decide +kernel
  · obtain rfl := Option.some.inj writes
    exact within
  · split at writes
    · next f reads =>
      obtain rfl := Option.some.inj writes
      obtain ⟨-, -, g, again, -⟩ := Proof.Json.reads_appendFloat reads
      exact Option.isSome_of_eq_some again
    · cases writes

mutual

theorem inRange_normalizeValue :
    (v : Value) → {new : Value} → inRange v → normalizeValue v = some new → inRange new
  | .null, _, within, stored | .bool _, _, within, stored | .string _, _, within, stored => by
    simp only [normalizeValue, Option.some.injEq] at stored
    exact stored ▸ within
  | .number literal, _, within, stored => by
    rw [normalizeValue, Option.map_eq_some_iff] at stored
    obtain ⟨out, writes, rfl⟩ := stored
    exact parseFloat_appendNumber within writes
  | .array elems, _, within, stored => by
    rw [normalizeValue, Option.map_eq_some_iff] at stored
    obtain ⟨new, stored, rfl⟩ := stored
    exact allInRange_normalizeElems elems within stored
  | .object members, _, within, stored => by
    rw [normalizeValue, Option.map_eq_some_iff] at stored
    obtain ⟨new, stored, rfl⟩ := stored
    exact membersInRange_normalizeMembers members within stored

theorem allInRange_normalizeElems : (elems : List Value) → {new : List Value} → allInRange elems →
    normalizeElems elems = some new → allInRange new
  | [], _, _, stored => by
    rw [normalizeElems, Option.some.injEq] at stored
    exact stored ▸ rfl
  | v :: rest, _, within, stored => by
    simp only [allInRange, Bool.and_eq_true] at within
    simp only [normalizeElems, Option.bind_eq_bind, Option.bind_eq_some_iff, Option.pure_def,
      Option.some.injEq] at stored
    obtain ⟨first, value, others, later, rfl⟩ := stored
    rw [allInRange, Bool.and_eq_true]
    exact ⟨inRange_normalizeValue v within.1 value, allInRange_normalizeElems rest within.2 later⟩

theorem membersInRange_normalizeMembers :
    (members : Members) → {new : Members} → membersInRange members →
    normalizeMembers members = some new → membersInRange new
  | [], _, _, stored => by
    rw [normalizeMembers, Option.some.injEq] at stored
    exact stored ▸ rfl
  | (name, v) :: rest, _, within, stored => by
    simp only [membersInRange, Bool.and_eq_true] at within
    simp only [normalizeMembers, Option.bind_eq_bind, Option.bind_eq_some_iff, Option.pure_def,
      Option.some.injEq] at stored
    obtain ⟨first, value, others, later, rfl⟩ := stored
    rw [membersInRange, Bool.and_eq_true]
    exact ⟨inRange_normalizeValue v within.1 value,
      membersInRange_normalizeMembers rest within.2 later⟩

end

theorem mem_names_set {other : GoString} :
    other ∈ (set members name v).map Prod.fst ↔ other ∈ members.map Prod.fst ∨ other = name := by
  induction members with
  | nil => simp [Json.set]
  | cons member rest ih =>
    rw [Json.set]
    split
    · next same =>
      subst same
      simp [or_right_comm]
    · rw [List.map_cons, List.mem_cons, ih, List.map_cons, List.mem_cons, or_assoc]

theorem membersRepeat_set (distinct : membersRepeat members = false)
    (value : hasRepeatedNames v = false) :
    membersRepeat (set members name v) = false := by
  induction members with
  | nil => simp [Json.set, membersRepeat, value]
  | cons member rest ih =>
    obtain ⟨fresh, old, others⟩ := membersRepeat_cons distinct
    rw [Json.set]
    split
    · simp [membersRepeat, value, others, -List.mem_map, fresh]
    · next apart =>
      have new : member.1 ∉ (set rest name v).map Prod.fst := fun mem =>
        (mem_names_set.mp mem).elim fresh apart
      simp [membersRepeat, old, ih others, -List.mem_map, new]

theorem membersInRange_set (within : membersInRange members) (value : inRange v) :
    membersInRange (set members name v) := by
  induction members with
  | nil => simp [Json.set, membersInRange, value]
  | cons member rest ih =>
    simp only [membersInRange, Bool.and_eq_true] at within
    rw [Json.set]
    split
    · simp [membersInRange, value, within.2]
    · simp [membersInRange, within.1, ih within.2]

theorem withDefaults_induction {P : Members → Prop} (holds : P obj)
    (kept : ∀ obj, P obj → ∀ entry ∈ manifestDefaults, P (set obj entry.1 entry.2)) :
    P (withDefaults obj) := by
  refine List.foldlRecOn manifestDefaults _ holds fun obj holds entry mem => ?_
  obtain ⟨name, v⟩ := entry
  dsimp only
  split
  · exact holds
  · exact kept obj holds (name, v) mem

theorem membersRepeat_withDefaults (distinct : membersRepeat obj = false) :
    membersRepeat (withDefaults obj) = false := by
  refine withDefaults_induction (P := fun obj => membersRepeat obj = false) distinct
    fun obj distinct entry mem => membersRepeat_set distinct ?_
  simp only [manifestDefaults, List.mem_cons, List.not_mem_nil, or_false] at mem
  rcases mem with rfl | rfl | rfl <;> rfl

theorem membersInRange_withDefaults (within : membersInRange obj) :
    membersInRange (withDefaults obj) := by
  refine withDefaults_induction (P := fun obj => membersInRange obj) within fun obj within entry mem => membersInRange_set within ?_
  simp only [manifestDefaults, List.mem_cons, List.not_mem_nil, or_false] at mem
  rcases mem with rfl | rfl | rfl <;> rfl

/-! ## The files of stored manifests -/

open Program

variable {files : FileEnv} {r : Request} {org coll key name version ident sum : GoString} {raw : Raw} {s t : Store}
  {inv : Store → Prop}

def manifestColls : List GoString := [cookbooksColl, artifactsColl]

def Referenced (s : Store) (org sum : GoString) : Prop :=
  ∃ coll ∈ manifestColls, ∃ key raw, s.get org coll key = some raw ∧ sum ∈ references raw

structure Backed (s : Store) : Prop where
  readable : ∀ org, ∀ coll ∈ manifestColls, ∀ key raw, s.get org coll key = some raw → Readable raw
  blobs : ∀ org sum, Referenced s org sum → s.hasBlob org sum

structure SameFiles (s t : Store) : Prop where
  manifests : ∀ org, ∀ coll ∈ manifestColls, ∀ key, t.get org coll key = s.get org coll key
  blobs : ∀ org sum, t.blob org sum = s.blob org sum

theorem SameFiles.referenced (same : SameFiles s t) :
    Referenced t org sum ↔ Referenced s org sum := by
  refine exists_congr fun coll => and_congr_right fun mem => ?_
  simp only [same.manifests org coll mem]

theorem SameFiles.backed (same : SameFiles s t) (backed : Backed s) : Backed t where
  readable org coll mem key raw found := backed.readable org coll mem key raw (same.manifests org coll mem key ▸ found)
  blobs org sum listed := by
    have there := backed.blobs org sum (same.referenced.mp listed)
    exact (congrArg Option.isSome (same.blobs org sum)).trans there

theorem sameFiles_put {val : Raw} (apart : coll ∉ manifestColls) :
    SameFiles s (s.put org coll key val) where
  manifests _ _ mem _ := get_put_of_ne fun same => apart (same ▸ mem)
  blobs _ _ := rfl

theorem sameFiles_delete (apart : coll ∉ manifestColls) :
    SameFiles s (s.delete org coll key).1 where
  manifests org' coll' mem key' := by
    rw [get_delete, if_neg]
    exact fun here => apart (here.2.1 ▸ mem)
  blobs := Proof.Store.blob_delete s org coll key

theorem run_collectChecksums (org coll : GoString) (keys : List GoString) (s : Store) :
    ∃ sums, (collectChecksums org coll keys).run exec s = (.ok sums, s) ∧
      ∀ sum, sum ∈ sums ↔ ∃ key ∈ keys, sum ∈ ((s.get org coll key).bind storedChecksums).getD [] := by
  induction keys with
  | nil => exact ⟨[], rfl, by simp⟩
  | cons key keys ih =>
    obtain ⟨sums, ran, listed⟩ := ih
    refine ⟨((s.get org coll key).bind storedChecksums).getD [] ++ sums, ?_, by simp [listed]⟩
    rw [collectChecksums, run_get_bind, run_bind_of_ok ran]
    rfl

theorem run_referencedChecksums (backed : ∀ org, ∀ coll ∈ manifestColls, ∀ key raw, s.get org coll key = some raw →
      Readable raw) (org : GoString) :
    ∃ marked, (referencedChecksums org).run exec s = (.ok marked, s) ∧ ∀ sum, sum ∈ marked ↔
      Referenced s org sum := by
  obtain ⟨cookbooks, ran, listed⟩ :=
    run_collectChecksums org cookbooksColl (s.keys org cookbooksColl) s
  obtain ⟨artifacts, ran', listed'⟩ :=
    run_collectChecksums org artifactsColl (s.keys org artifactsColl) s
  have each (coll : GoString) (mem : coll ∈ manifestColls) (sum : GoString) :
      (∃ key ∈ s.keys org coll, sum ∈ ((s.get org coll key).bind storedChecksums).getD []) ↔
        ∃ key raw, s.get org coll key = some raw ∧ sum ∈ references raw := by
    refine exists_congr fun key => ?_
    cases found : s.get org coll key with
    | none => simp
    | some raw =>
      obtain ⟨sums, reads, same⟩ := storedChecksums_readable (backed org coll mem key raw found)
      simp [mem_keys, found, reads, same]
  refine ⟨cookbooks ++ artifacts, ?_, fun sum => ?_⟩
  · rw [referencedChecksums, run_keys_bind, run_bind_of_ok ran, run_keys_bind, run_bind_of_ok ran']
    rfl
  · rw [List.mem_append, listed, listed', each cookbooksColl (by simp [manifestColls]),
      each artifactsColl (by simp [manifestColls])]
    simp [Referenced, manifestColls]

theorem run_sweep (org : GoString) (marked candidates : List GoString) (s : Store) :
    ∃ t, (candidates.forM fun sum => if sum ∈ marked then pure () else Org.deleteBlob org sum).run exec s = (.ok (), t) ∧
      (∀ org' coll key, t.get org' coll key = s.get org' coll key) ∧
      ∀ org' sum, t.blob org' sum =
        if org = org' ∧ sum ∈ candidates ∧ sum ∉ marked then none else s.blob org' sum := by
  induction candidates generalizing s with
  | nil => exact ⟨s, rfl, fun _ _ _ => rfl, by simp⟩
  | cons first rest ih =>
    by_cases mem : first ∈ marked
    · obtain ⟨t, ran, gets, blobs⟩ := ih s
      refine ⟨t, ?_, gets, fun org' sum => ?_⟩
      · rw [List.forM_eq_forM, List.forM_cons, if_pos mem]
        exact ran
      · rw [blobs]
        by_cases same : sum = first
        · simp [same, mem]
        · simp [same]
    · obtain ⟨t, ran, gets, blobs⟩ := ih (s.deleteBlob org first)
      refine ⟨t, ?_, gets, fun org' sum => ?_⟩
      · rw [List.forM_eq_forM, List.forM_cons, if_neg mem]
        exact ran
      · rw [blobs, Proof.Store.blob_deleteBlob]
        by_cases same : first = sum
        · subst same
          by_cases here : org = org' <;> simp [mem, here]
        · simp [same, Ne.symm same]

structure Collected (org : GoString) (old : Raw) (s t : Store) : Prop where
  removed : ∀ sum ∈ references old, ¬ Referenced t org sum → t.blob org sum = none
  kept : ∀ org' sum, (org = org' → sum ∈ references old → Referenced t org sum) → t.blob org' sum = s.blob org' sum

theorem run_collectManifest (backed : Backed s) (readable : Readable raw) (org : GoString) :
    ∃ t, (collectManifest org raw).run exec s = (.ok (), t) ∧ Collected org raw s t ∧ Backed t := by
  obtain ⟨sums, reads, listed⟩ := storedChecksums_readable readable
  obtain ⟨marked, marks, isMarked⟩ := run_referencedChecksums backed.readable org
  obtain ⟨t, sweeps, gets, blobs⟩ := run_sweep org marked sums s
  have ran : (collectManifest org raw).run exec s = (.ok (), t) := by
    rw [collectManifest, reads]
    dsimp only [gcOrphanedBlobs]
    split
    · next none =>
      subst none
      exact sweeps
    · rw [run_bind_of_ok marks]
      exact sweeps
  have same (org sum : GoString) :
      Referenced t org sum ↔ Referenced s org sum := by simp only [Referenced, gets]
  have collected : Collected org raw s t := by
    refine ⟨fun sum mem unlisted => ?_, fun org' sum still => ?_⟩
    · have unmarked : sum ∉ marked := by rwa [isMarked, ← same]
      rw [blobs, if_pos ⟨rfl, (listed sum).mpr mem, unmarked⟩]
    · rw [blobs, if_neg]
      rintro ⟨here, mem, unmarked⟩
      rw [isMarked, ← same] at unmarked
      exact unmarked (still here ((listed sum).mp mem))
  refine ⟨t, ran, collected, fun org' coll mem key raw found => ?_, fun org' sum mem => ?_⟩
  · exact backed.readable org' coll mem key raw (gets org' coll key ▸ found)
  · have there := backed.blobs org' sum ((same org' sum).mp mem)
    exact (congrArg Option.isSome (collected.kept org' sum fun here _ => here ▸ mem)).trans there

def NumbersInRange (r : Request) : Prop :=
  match r.body with
  | .document doc => inRange doc
  | .malformed _ => True

theorem leads_readObjectBody (holds : inv s) :
    Leads exec inv (readObjectBody r) s fun obj t =>
      t = s ∧ (NumbersInRange r → membersInRange obj) := by
  unfold NumbersInRange readObjectBody
  cases body : r.body with
  | malformed => exact holds
  | document doc =>
    cases doc with
    | object members =>
      dsimp only
      cases stored : normalizeMembers members with
      | none => exact holds
      | some obj => exact ⟨rfl, fun within => membersInRange_normalizeMembers members within stored⟩
    | _ => exact holds

def Uploaded (r : Request) (obj : Members) : Prop :=
  membersRepeat obj = false ∧ (NumbersInRange r → membersInRange obj)

theorem leads_decodeManifestBody (holds : inv s) :
    Leads exec inv (decodeManifestBody r) s fun obj t => t = s ∧ Uploaded r obj := by
  refine (leads_readObjectBody holds).past fun obj numbers => ?_
  refine (leads_refuseIf holds).past fun _ distinct => ?_
  exact ⟨rfl, by simpa using distinct, numbers⟩

theorem leads_cookbookManifest (holds : inv s) :
    Leads exec inv (cookbookManifest r name version) s fun obj t => t = s ∧ Uploaded r obj := by
  refine (leads_refuseWith holds).past fun _ _ => ?_
  refine (leads_decodeManifestBody holds).past fun obj ⟨distinct, numbers⟩ => ?_
  refine (leads_refuseWith holds).past fun _ _ => ?_
  exact ⟨rfl, membersRepeat_withDefaults distinct,
    fun within => membersInRange_withDefaults (numbers within)⟩

theorem leads_artifactManifest (holds : inv s) :
    Leads exec inv (artifactManifest r) s fun obj t => t = s ∧ Uploaded r obj := by
  refine (leads_decodeManifestBody holds).past fun obj valid => ?_
  refine (leads_refuseWith holds).past fun _ _ => ?_
  exact ⟨rfl, valid⟩

theorem leads_requireBlobs {message : GoString → GoString} (holds : inv s) (sums : List GoString) :
    Leads exec inv (requireBlobs org message sums) s fun _ t =>
      t = s ∧ ∀ sum ∈ sums, s.hasBlob org sum := by
  induction sums with
  | nil => exact ⟨rfl, nofun⟩
  | cons sum sums ih =>
    refine leads_bind.mpr (leads_perform ((leads_refuseIf holds).then ?_))
    rintro _ s ⟨rfl, there⟩
    refine ih.mono ?_
    rintro _ t ⟨rfl, others⟩
    exact ⟨rfl, List.forall_mem_cons.mpr ⟨by simpa [exec] using there, others⟩⟩

theorem Backed.put (backed : Backed s) {obj : Members} (distinct : membersRepeat obj = false)
    (numbers : membersInRange obj) (there : ∀ sum ∈ manifestChecksums obj, s.hasBlob org sum) :
    Backed (s.put org coll key (storedObject obj)) := by
  refine ⟨fun org' coll' mem' key' raw found => ?_, fun org' sum listed => ?_⟩
  · rw [get_put] at found
    split at found
    · cases found
      exact ⟨obj, rfl, distinct, numbers⟩
    · exact backed.readable org' coll' mem' key' raw found
  · obtain ⟨coll', mem', key', raw, found, listed⟩ := listed
    rw [get_put] at found
    split at found
    · next here =>
      cases found
      rw [← here.1]
      exact there sum (manifestChecksums_eq distinct ▸ listed)
    · exact backed.blobs org' sum ⟨coll', mem', key', raw, found, listed⟩

theorem Backed.delete (backed : Backed s) : Backed (s.delete org coll key).1 := by
  have before {org' coll' key' : GoString} {raw : Raw} (found : (s.delete org coll key).1.get org' coll' key' = some raw) :
      s.get org' coll' key' = some raw := by
    rw [get_delete] at found
    split at found
    · cases found
    · exact found
  refine ⟨fun org' coll' mem key' raw found => backed.readable org' coll' mem key' raw
    (before found), ?_⟩
  rintro org' sum ⟨coll', mem, key', raw, found, listed⟩
  refine (congrArg Option.isSome (Proof.Store.blob_delete s org coll key org' sum)).trans ?_
  exact backed.blobs org' sum ⟨coll', mem, key', raw, before found, listed⟩

theorem Backed.putCookbookVersion (backed : Backed s) (within : NumbersInRange r) :
    Leads exec Backed (putCookbookVersion files r org name version) s fun _ t => Backed t ∧
      ∀ raw, s.get org cookbooksColl (cookbookKey name version) = some raw → Collected org raw s t := by
  refine (leads_resolveOrg backed).past fun _ _ => ?_
  refine (leads_cookbookManifest backed).past fun obj ⟨distinct, numbers⟩ => ?_
  refine (leads_requireBlobs backed _).past fun _ there => ?_
  have stored : Backed (s.put org cookbooksColl (cookbookKey name version) (storedObject obj)) :=
    backed.put distinct (numbers within) there
  refine leads_bind.mpr (leads_perform (leads_bind.mpr (leads_perform ?_)))
  simp only [exec]
  cases previous : s.get org cookbooksColl (cookbookKey name version) with
  | none => exact ⟨stored, by simp⟩
  | some old =>
    have readable := backed.readable org cookbooksColl (by simp [manifestColls]) _ old previous
    obtain ⟨t, ran, collected, after⟩ := run_collectManifest stored readable org
    refine leads_bind.mpr (leads_of_run ran ⟨after, fun raw same => ?_⟩)
    cases same
    exact ⟨collected.removed, collected.kept⟩

theorem Backed.putArtifactVersion (backed : Backed s) (within : NumbersInRange r) :
    Leads exec Backed (putArtifactVersion files r org name ident) s fun _ => Backed := by
  refine (leads_resolveOrg backed).past fun _ _ => ?_
  refine leads_bind.mpr (leads_perform ((leads_refuseIf backed).then ?_))
  rintro _ s ⟨rfl, -⟩
  refine (leads_artifactManifest backed).past fun obj ⟨distinct, numbers⟩ => ?_
  refine (leads_requireBlobs backed _).past fun _ there => ?_
  exact backed.put distinct (numbers within) there

theorem leads_deleteVersionedACL :
    Leads exec inv (deleteVersionedACL org coll name) s fun _ t => SameFiles s t := by
  have versions : (hasVersion org coll name).run exec s = (.ok _, s) := rfl
  refine leads_bind.mpr (leads_of_run versions (leads_ite (fun _ => ?_) fun _ => ?_))
  · exact ⟨fun _ _ _ _ => rfl, fun _ _ => rfl⟩
  · exact leads_of_run run_deleteACL (sameFiles_delete (by decide))

theorem Backed.collect (backed : Backed s) (mem : coll ∈ manifestColls)
    (found : s.get org coll key = some raw)
    (response : Response) :
    Leads exec Backed (do
      deleteVersionedACL org coll name
      collectManifest org raw
      return response) (s.delete org coll key).1 fun _ t => Backed t ∧ Collected org raw s t := by
  refine leads_deleteVersionedACL.then fun _ mid same => ?_
  obtain ⟨t, ran, collected, after⟩ :=
    run_collectManifest (same.backed backed.delete) (backed.readable org coll mem key raw found) org
  refine leads_bind.mpr (leads_of_run ran ⟨after, collected.removed, fun org' sum still => ?_⟩)
  rw [collected.kept org' sum still, same.blobs, Proof.Store.blob_delete]

theorem Backed.deleteArtifactVersion (backed : Backed s) :
    Leads exec Backed (deleteArtifactVersion files r org name ident) s fun _ t => Backed t ∧
      ∀ raw, s.get org artifactsColl (cookbookKey name ident) = some raw → Collected org raw s t := by
  refine (leads_resolveOrg backed).past fun _ _ => ?_
  refine leads_deleteRow backed fun old found => ?_
  refine (backed.collect (by simp [manifestColls]) found _).mono fun _ t after =>
    ⟨after.1, fun raw same => ?_⟩
  rw [found] at same
  cases same
  exact after.2

def resolved (s : Store) (org name version : GoString) : Option GoString :=
  if version ≠ lit "_latest" ∧ version ≠ lit "latest" then some version
  else (versionsOf name (s.keys org cookbooksColl)).head?

theorem run_resolveVersion :
    (resolveVersion org name version).run exec s = (.ok (resolved s org name version), s) := by
  unfold resolveVersion resolved
  split <;> rfl

theorem Backed.deleteCookbookVersion (backed : Backed s) :
    Leads exec Backed (deleteCookbookVersion files r org name version) s fun _ t => Backed t ∧
      ∀ raw, ((resolved s org name version).bind fun version => s.get org cookbooksColl (cookbookKey name version)) =
        some raw → Collected org raw s t := by
  refine (leads_resolveOrg backed).past fun _ _ => ?_
  refine leads_bind.mpr (leads_of_run run_resolveVersion ?_)
  cases resolved s org name version with
  | none => exact backed
  | some version =>
    refine leads_deleteRow backed fun old found => ?_
    refine (backed.collect (by simp [manifestColls]) found _).mono fun _ t after =>
      ⟨after.1, fun raw same => ?_⟩
    rw [Option.bind_some, found] at same
    cases same
    exact after.2

theorem Backed.putFile {checksum : GoString} (backed : Backed s) :
    Leads exec Backed (putFile files r org checksum) s fun _ => Backed := by
  refine (leads_resolveOrg backed).past fun _ _ => ?_
  refine (leads_refuseIf backed).past fun _ _ => ?_
  refine ⟨backed.readable, fun org' sum listed => ?_⟩
  have there := backed.blobs org' sum listed
  refine (congrArg Option.isSome (Proof.Store.blob_putBlob s org checksum r.body org' sum)).trans ?_
  split
  · rfl
  · exact there

theorem Backed.createSandbox (backed : Backed s) :
    Leads exec Backed (createSandbox files r org) s fun _ => Backed := by
  have reads (sums : List GoString) : (uploadEntries files r org sums).Only ReadOnly := by
    induction sums with
    | nil => exact only_pure _
    | cons sum sums ih =>
      have asks : (Org.hasBlob org sum).Only ReadOnly := only_perform trivial
      exact asks.bind fun _ => ih.bind fun _ => only_pure _
  refine (leads_resolveOrg backed).past fun _ _ => ?_
  dsimp only
  split
  · exact backed
  · refine (leads_reads (reads _) backed).still fun _ => ?_
    exact (sameFiles_put (by decide)).backed backed

theorem Backed.commitSandbox {id : GoString} (backed : Backed s) :
    Leads exec Backed (commitSandbox org id) s fun _ => Backed := by
  refine (leads_resolveOrg backed).past fun _ _ => ?_
  refine leads_bind.mpr (leads_perform ?_)
  simp only [exec]
  cases s.get org sandboxesColl id with
  | none => exact backed
  | some raw =>
    dsimp only
    split
    · exact backed
    · refine (leads_requireBlobs backed _).past fun _ _ => ?_
      exact (sameFiles_put (by decide)).backed backed

theorem Backed.hasBlob (backed : Backed s) (mem : coll ∈ manifestColls)
    (found : s.get org coll key = some raw)
    {sums : List GoString} (reads : storedChecksums raw = some sums) (listed : sum ∈ sums) :
    s.hasBlob org sum := by
  obtain ⟨read, same, each⟩ := storedChecksums_readable (backed.readable org coll mem key raw found)
  rw [reads] at same
  obtain rfl := Option.some.inj same
  exact backed.blobs org sum ⟨coll, mem, key, raw, found, (each sum).mp listed⟩

def removedManifest (org : GoString) (s : Store) : CookbookWrite → Option Raw
  | .putVersion _ name version => s.get org cookbooksColl (cookbookKey name version)
  | .deleteVersion _ name version =>
    (resolved s org name version).bind fun version =>
      s.get org cookbooksColl (cookbookKey name version)
  | .deleteArtifact _ name ident => s.get org artifactsColl (cookbookKey name ident)
  | _ => none

def ManifestInRange : CookbookWrite → Prop
  | .putVersion r _ _ => NumbersInRange r
  | .putArtifact r _ _ => NumbersInRange r
  | _ => True

theorem Backed.request (backed : Backed s) (request : CookbookWrite)
    (within : ManifestInRange request) :
    Leads exec Backed (request.handler files org) s fun _ t => Backed t ∧
      ∀ raw, removedManifest org s request = some raw → Collected org raw s t := by
  cases request with
  | putVersion r name version => exact backed.putCookbookVersion within
  | deleteVersion r name version => exact backed.deleteCookbookVersion
  | putArtifact r name ident => exact (backed.putArtifactVersion within).mono fun _ _ after => ⟨after, nofun⟩
  | deleteArtifact r name ident => exact backed.deleteArtifactVersion
  | putFile r checksum => exact backed.putFile.mono fun _ _ after => ⟨after, nofun⟩
  | createSandbox r => exact backed.createSandbox.mono fun _ _ after => ⟨after, nofun⟩
  | commitSandbox id => exact backed.commitSandbox.mono fun _ _ after => ⟨after, nofun⟩

abbrev CookbookSession (admitted : CookbookWrite → Prop) (start : Store) : Store → Prop :=
  Session exec (fun request : (FileEnv × GoString) × CookbookWrite => request.2.handler request.1.1 request.1.2)
    (fun request _ => admitted request.2) start

theorem backed_of_session {start : Store}
    (empty : ∀ org, ∀ coll ∈ manifestColls, ∀ key, start.get org coll key = none)
    (reached : CookbookSession ManifestInRange start s) : Backed s := by
  refine reached.invariant ⟨fun org coll mem key raw found => ?_,
    ?_⟩ fun request s _ within backed =>
    (backed.request request.2 within).mono fun _ _ after => after.1
  · rw [empty org coll mem key] at found
    cases found
  · rintro org sum ⟨coll, mem, key, raw, found, -⟩
    rw [empty org coll mem key] at found
    cases found

/-- When the numbers of every manifest are float64s, what a stored manifest lists is there, and a request
that removes a manifest takes just the files that no manifest lists any more. -/
theorem blobs_match_manifests {start : Store}
    (empty : ∀ org, ∀ coll ∈ manifestColls, ∀ key, start.get org coll key = none)
    (reached : CookbookSession ManifestInRange start s) :
    (∀ org sum, Referenced s org sum → s.hasBlob org sum) ∧
      ∀ files org request response t raw, ManifestInRange request →
        (request.handler files org).run exec s = (.ok response, t) → removedManifest org s request = some raw →
        Collected org raw s t := by
  have backed := backed_of_session empty reached
  refine ⟨backed.blobs, fun files org request response t raw within ran removes => ?_⟩
  have leads := @Backed.request files org s backed request within
  unfold Leads at leads
  rw [ran] at leads
  exact leads.2 raw removes

section Runs

def fileSum : GoString := lit "6cd3"

def plainFiles : FileEnv := ⟨fun _ => fileSum, fun _ => [], fun _ _ _ _ => [], []⟩

def listsFile (more : Members) : Request :=
  creates ((lit "recipes", .array [.object [(lit "checksum", .string fileSum)]]) :: more)

def sharesFile (more : Members) : List ((FileEnv × GoString) × CookbookWrite) :=
  [.putFile (creates []) fileSum, .putArtifact (listsFile more) ops (lit "1"), .putArtifact (listsFile []) ops (lit "2"),
    .deleteArtifact (creates []) ops (lit "2")].map fun request => ((plainFiles, acme), request)

def acmeAlone : Store := (Store.newMemoryBackend.createOrg acme).1

def filesAfter (requests : List ((FileEnv × GoString) × CookbookWrite)) : Store :=
  requests.foldl (fun s request => ((request.2.handler request.1.1 request.1.2).run exec s).2) acmeAlone

theorem referenced_of_any (mem : coll ∈ manifestColls)
    (listed : (s.get org coll key).any fun raw => sum ∈ references raw) : Referenced s org sum := by
  cases found : s.get org coll key with
  | none =>
    rw [found] at listed
    cases listed
  | some raw =>
    rw [found] at listed
    exact ⟨coll, mem, key, raw, found, of_decide_eq_true listed⟩

theorem sharesFile_inRange : ∀ request ∈ sharesFile [], ManifestInRange request.2 := by
  simp only [sharesFile, List.map_cons, List.map_nil, List.forall_mem_cons]
  exact ⟨trivial, rfl, rfl, trivial, nofun⟩

theorem shared_blob_kept :
    let s := filesAfter (sharesFile [])
    Referenced s acme fileSum ∧ s.hasBlob acme fileSum ∧
      ∃ response t raw, (deleteArtifactVersion plainFiles (creates []) acme ops (lit "1")).run exec s = (.ok response, t) ∧
        s.get acme artifactsColl (cookbookKey ops (lit "1")) = some raw ∧ Collected acme raw s t := by
  have reached : CookbookSession ManifestInRange acmeAlone (filesAfter (sharesFile [])) :=
    Session.all .start fun request mem _ => sharesFile_inRange request mem
  have listed : Referenced (filesAfter (sharesFile [])) acme fileSum :=
    @referenced_of_any acme artifactsColl (cookbookKey ops (lit "1")) _ _ (by decide) (by decide +kernel)
  obtain ⟨backed, collects⟩ := blobs_match_manifests (fun _ _ _ _ => rfl) reached
  exact ⟨listed, backed acme fileSum listed, _, _, _, rfl, rfl,
    collects plainFiles acme (.deleteArtifact (creates []) ops (lit "1")) _ _ _ trivial rfl rfl⟩

theorem shared_blob_lost :
    ∃ more s, CookbookSession (fun _ => True) acmeAlone s ∧ s = filesAfter (sharesFile more) ∧
      Referenced s acme fileSum ∧ s.hasBlob acme fileSum = false := by
  let more : Members := [(lit "serial", .number (lit "1" ++ List.replicate 309 0x30))]
  have listed : Referenced (filesAfter (sharesFile more)) acme fileSum :=
    @referenced_of_any acme artifactsColl (cookbookKey ops (lit "1")) _ _ (by decide) (by decide +kernel)
  exact ⟨more, _, Session.all .start fun _ _ _ => trivial, rfl, listed, by decide +kernel⟩

end Runs

/-! ## Manifests stored while files are collected -/

open Program
open CookbookWrite (handler)

variable {α : Type} {sure : Bool} {message : GoString → GoString} {previous : Option Raw}
  {created overwritten : Response} {request : CookbookWrite}

abbrev Place := { coll // coll ∈ manifestColls } × GoString

def hasFile (org sum : GoString) (s : Store) : Bool := s.hasBlob org sum

def listsSum (org sum : GoString) (s : Store) (place : Place) : Bool :=
  sum ∈ ((s.get org place.1 place.2).bind storedChecksums).getD []

def Saves : StoreCall → Prop
  | .deleteBlob .. => False
  | .deleteOrg _ => False
  | _ => True

theorem saves_reads : Reads Saves := by
  constructor <;> exact trivial

theorem Saves.exec {c : StoreCall} (saves : Saves c) (s : Store) (there : hasFile org sum s) :
    hasFile org sum (exec c s).2 := by
  have same {t : Store} (blobs : t.blob org sum = s.blob org sum) : hasFile org sum t :=
    (congrArg Option.isSome blobs).trans there
  cases c with
  | create o coll key val => exact same (Proof.Store.blob_create s o coll key val org sum)
  | delete o coll key => exact same (Proof.Store.blob_delete s o coll key org sum)
  | createOrg name => exact same (Proof.Store.blob_createOrg s name org sum)
  | putBlob o checksum data =>
    refine (congrArg Option.isSome (Proof.Store.blob_putBlob s o checksum data org sum)).trans ?_
    split
    · rfl
    · exact there
  | deleteBlob | deleteOrg => exact saves.elim
  | _ => exact there

theorem spares_of_saves {h : Handler α} (only : h.Only Saves) :
    h.Only fun c => ∀ s, hasFile org sum s → hasFile org sum (exec c s).2 :=
  only.mono fun _ saves s there => saves.exec s there

theorem Within.addsNone {f : Footprint} {c : StoreCall} (within : Within org f c)
    (aside : ∀ coll ∈ f.puts, coll ∉ manifestColls) :
    AddsNone exec (listsSum org sum) c := by
  intro s place listed
  have noPut : (place.1 : GoString) ∉ f.puts := fun mem => aside _ mem place.1.2
  cases found : (exec c s).2.get org place.1 place.2 with
  | none => simp [listsSum, found] at listed
  | some raw =>
    rw [listsSum, found] at listed
    rw [listsSum, (within.frame s).stored noPut found]
    exact listed

theorem addsNone_put {obj : Members} (distinct : membersRepeat obj = false)
    (unlisted : sum ∉ manifestChecksums obj) :
    AddsNone exec (listsSum org sum) (.put org coll key (storedObject obj)) := by
  intro s place listed
  rw [listsSum, exec, get_put] at listed
  split at listed
  · rw [manifestChecksums_eq distinct] at unlisted
    refine absurd ?_ unlisted
    cases reads : storedChecksums (storedObject obj) with
    | none => simp [reads] at listed
    | some sums => exact (mem_storedChecksums distinct reads).mp (by simpa [reads] using listed)
  · exact listed

theorem reads_requireBlobs (sums : List GoString) :
    (requireBlobs org message sums).Only ReadOnly := by
  induction sums with
  | nil => exact only_pure _
  | cons first sums ih =>
    have asks : (Org.hasBlob org first).Only ReadOnly := only_perform trivial
    exact asks.bind fun _ => only_refuseIf.bind fun _ => ih

theorem careful_reading {β : Type} {p : Handler β} {f : β → Handler α} (reads : p.Only ReadOnly)
    (rest : ∀ b, (f b).Careful exec (hasFile org sum) (listsSum org sum) sure) :
    (p >>= f).Careful exec (hasFile org sum) (listsSum org sum) sure :=
  (reads.mono fun _ only => only.exec).careful_bind rest

theorem careful_checked {sums : List GoString} {f : Unit → Handler α}
    (listed : sum ∈ sums → (f ()).Careful exec (hasFile org sum) (listsSum org sum) true)
    (unlisted : sum ∉ sums → (f ()).Careful exec (hasFile org sum) (listsSum org sum) false) :
    (requireBlobs org message sums >>= f).Careful exec (hasFile org sum)
    (listsSum org sum) false := by
  induction sums with
  | nil => exact unlisted (by simp)
  | cons first sums ih =>
    have asks : (Org.hasBlob org first).Only ReadOnly := only_perform trivial
    rw [requireBlobs, bind_bind]
    by_cases same : first = sum
    · subst same
      refine careful_ask (fun _ => rfl) (fun s missing => ?_) fun answer => ?_
      · have none : (exec (.hasBlob org first) s).1 = false := missing
        rw [none]
        trivial
      · rw [bind_bind]
        exact careful_reading only_refuseIf fun _ =>
          careful_reading (reads_requireBlobs sums) fun _ => listed (by simp)
    · refine careful_reading asks fun _ => ?_
      rw [bind_bind]
      refine careful_reading only_refuseIf fun _ =>
        ih (fun mem => listed (by simp [mem])) fun mem => unlisted ?_
      simp [mem, Ne.symm same]

variable {place : Place}

theorem finds_of_saves {h : Handler α} (only : h.Only Saves) :
    h.Finds exec (hasFile org sum) (listsSum org sum) place fun _ => True :=
  (spares_of_saves only).finds

theorem saves_collectChecksums (keys : List GoString) :
    (collectChecksums org coll keys).Only Saves := by
  induction keys with
  | nil => exact only_pure _
  | cons key keys ih => exact saves_reads.only_get.bind fun _ => ih.bind fun _ => only_pure _

theorem finds_collectChecksums {keys : List GoString} (mem : place.2 ∈ keys) :
    (collectChecksums org place.1 keys).Finds exec (hasFile org sum)
    (listsSum org sum) place fun sums => sum ∈ sums := by
  induction keys with
  | nil => cases mem
  | cons first keys ih =>
    have get : (Org.get org place.1 first).Finds exec (hasFile org sum) (listsSum org sum) place fun found =>
        first = place.2 → sum ∈ (found.bind storedChecksums).getD [] := by
      refine finds_perform (fun _ there => there) fun s listed same => ?_
      subst same
      exact of_decide_eq_true listed
    refine get.bind fun found own => ?_
    by_cases same : first = place.2
    · exact (finds_of_saves (saves_collectChecksums keys)).bind fun sums _ =>
        List.mem_append_left _ (own same)
    · refine (ih ?_).bind fun sums more => List.mem_append_right _ more
      exact (List.mem_cons.mp mem).resolve_left fun here => same here.symm

theorem finds_referencedChecksums :
    (referencedChecksums org).Finds exec (hasFile org sum)
    (listsSum org sum) place fun sums => sum ∈ sums := by
  have keys : (Org.keys org place.1).Finds exec (hasFile org sum) (listsSum org sum) place fun keys => place.2 ∈ keys := by
    refine finds_perform (fun _ there => there) fun s listed => mem_keys.mpr ?_
    cases found : s.get org place.1 place.2 with
    | none => simp [listsSum, found] at listed
    | some raw => rfl
  have reads (coll : GoString) : (Org.keys org coll).Only Saves := saves_reads.only_keys
  obtain ⟨⟨coll, mem⟩, key⟩ := place
  simp only [manifestColls, List.mem_cons, List.not_mem_nil, or_false] at mem
  rcases mem with rfl | rfl
  · exact keys.bind fun _ listed => (finds_collectChecksums listed).bind fun sums own =>
      (finds_of_saves (reads _)).bind fun _ _ =>
        (finds_of_saves (saves_collectChecksums _)).bind fun _ _ =>
      List.mem_append_left _ own
  · exact (finds_of_saves (reads _)).bind fun _ _ =>
      (finds_of_saves (saves_collectChecksums _)).bind fun _ _ =>
      keys.bind fun _ listed => (finds_collectChecksums listed).bind fun sums own =>
        List.mem_append_right _ own

theorem finds_collectManifest :
    (collectManifest org raw).Finds exec (hasFile org sum)
    (listsSum org sum) place fun _ => True := by
  unfold collectManifest
  split
  · next sums _ =>
    unfold gcOrphanedBlobs
    split
    · trivial
    · refine finds_referencedChecksums.bind fun referenced marked =>
        Only.finds (only_forM (fun other => ?_) sums)
      refine only_ite (fun _ => only_pure _) fun unmarked => only_perform fun s there => ?_
      have differs : other ≠ sum := fun same => unmarked (same ▸ marked)
      refine (congrArg Option.isSome (Proof.Store.blob_deleteBlob s org other org sum)).trans ?_
      rw [if_neg fun here => differs here.2]
      exact there
  · trivial

theorem finds_collect {response : Response} :
    (do deleteVersionedACL org coll name; collectManifest org raw; return response : Handler Response).Finds exec
      (hasFile org sum) (listsSum org sum) place fun _ => True := by
  have deletes : (deleteACL org coll name).Only Saves :=
    (only_perform trivial : (Org.delete org aclsColl (aclKey coll name)).Only Saves).bind fun _ =>
      only_pure _
  have versions : (hasVersion org coll name).Only Saves :=
    saves_reads.only_range.bind fun _ => only_pure _
  have saves : (deleteVersionedACL org coll name).Only Saves :=
    versions.bind fun _ => only_ite (fun _ => only_pure _) fun _ => deletes
  exact (finds_of_saves saves).bind fun _ _ => finds_collectManifest.bind fun _ _ => trivial

theorem finds_overwrite : (match previous with
      | none => pure created
      | some raw => do collectManifest org raw; return overwritten : Handler Response).Finds exec
      (hasFile org sum) (listsSum org sum) place fun _ => True := by
  cases previous with
  | none => trivial
  | some raw => exact finds_collectManifest.bind fun _ _ => trivial

def storesManifest : CookbookWrite → Bool
  | .putVersion .. => true
  | .putArtifact .. => true
  | _ => false

def collectsFiles : CookbookWrite → Bool
  | .putVersion .. => true
  | .deleteVersion .. => true
  | .deleteArtifact .. => true
  | _ => false

theorem addsNone_of_not_stores (stores : storesManifest request = false) :
    (request.handler files org).Only (AddsNone exec (listsSum org sum)) := by
  refine (within_cookbook request).mono fun c within => within.addsNone ?_
  cases request with
  | putVersion | putArtifact => cases stores
  | deleteVersion | deleteArtifact | putFile => exact nofun
  | createSandbox | commitSandbox =>
    intro coll mem
    rw [List.mem_singleton.mp mem]
    decide

theorem saves_requireBlobs (sums : List GoString) : (requireBlobs org message sums).Only Saves := by
  induction sums with
  | nil => exact only_pure _
  | cons first sums ih =>
    have asks : (Org.hasBlob org first).Only Saves := only_perform trivial
    exact asks.bind fun _ => only_refuseIf.bind fun _ => ih

theorem only_artifactManifest {allowed : StoreCall → Prop} : (artifactManifest r).Only allowed :=
  only_decodeManifestBody.bind fun _ => only_refuseWith.bind fun _ => only_pure _

theorem saves_of_not_collects (collects : collectsFiles request = false) :
    (request.handler files org).Only Saves := by
  have put (coll key : GoString) (val : Raw) : (Org.put org coll key val).Only Saves :=
    only_perform trivial
  cases request with
  | putVersion | deleteVersion | deleteArtifact => cases collects
  | putArtifact r name ident =>
    exact saves_reads.only_resolveOrg.bind fun _ => saves_reads.only_get.bind fun _ =>
      only_refuseIf.bind fun _ =>
      only_artifactManifest.bind fun _ => (saves_requireBlobs _).bind fun _ =>
        (put _ _ _).bind fun _ => only_pure _
  | putFile r checksum =>
    have upload : (Org.putBlob org checksum r.body).Only Saves := only_perform trivial
    exact saves_reads.only_resolveOrg.bind fun _ => only_refuseIf.bind fun _ =>
      upload.bind fun _ => only_pure _
  | createSandbox r =>
    have entries (sums : List GoString) : (uploadEntries files r org sums).Only Saves := by
      induction sums with
      | nil => exact only_pure _
      | cons first sums ih =>
        have asks : (Org.hasBlob org first).Only Saves := only_perform trivial
        exact asks.bind fun _ => ih.bind fun _ => only_pure _
    refine saves_reads.only_resolveOrg.bind fun _ => ?_
    dsimp only
    split
    · exact only_stop _
    · exact (entries _).bind fun _ => (put _ _ _).bind fun _ => only_pure _
  | commitSandbox id =>
    refine saves_reads.only_resolveOrg.bind fun _ =>
      saves_reads.only_get.bind (only_option (only_stop _) fun _ => ?_)
    dsimp only
    split
    · exact only_stop _
    · exact (saves_requireBlobs _).bind fun _ => (put _ _ _).bind fun _ => only_pure _

theorem clears_request (request : CookbookWrite) :
    (request.handler files org).Clears exec (hasFile org sum) (listsSum org sum) place := by
  have orgThere : (resolveOrg org).Only Saves := saves_reads.only_resolveOrg
  have delete (coll key : GoString) : (Org.delete org coll key).Only Saves := only_perform trivial
  cases collects : collectsFiles request with
  | false => exact (spares_of_saves (saves_of_not_collects collects)).clears
  | true =>
    refine Finds.clears (?_ : Finds exec (hasFile org sum) (listsSum org sum) place
      (fun _ => True) _)
    cases request with
    | putArtifact | putFile | createSandbox | commitSandbox => cases collects
    | putVersion r name version =>
      have put (val : Raw) : (Org.put org cookbooksColl (cookbookKey name version) val).Only Saves := only_perform trivial
      exact (finds_of_saves orgThere).bind fun _ _ =>
        (finds_of_saves only_cookbookManifest).bind fun _ _ =>
        (finds_of_saves (saves_requireBlobs _)).bind fun _ _ =>
          (finds_of_saves saves_reads.only_get).bind
          fun previous _ => (finds_of_saves (put _)).bind fun _ _ => finds_overwrite
    | deleteVersion r name version =>
      have resolves : (resolveVersion org name version).Only Saves :=
        only_ite (fun _ => only_pure _) fun _ => saves_reads.only_keys.bind fun _ => only_pure _
      refine (finds_of_saves orgThere).bind fun _ _ =>
        (finds_of_saves resolves).bind fun found _ => ?_
      cases found with
      | none => trivial
      | some version =>
        refine (finds_of_saves (delete _ _)).bind fun deleted _ => ?_
        cases deleted with
        | none => trivial
        | some raw => exact finds_collect
    | deleteArtifact r name ident =>
      refine (finds_of_saves orgThere).bind fun _ _ =>
        (finds_of_saves (delete _ _)).bind fun deleted _ => ?_
      cases deleted with
      | none => trivial
      | some raw => exact finds_collect

theorem manifest_cases {p : Handler Members} (none : p.Only fun _ => False)
    (leads : ∀ s, Leads exec (fun _ => True) p s fun obj t => t = s ∧ Uploaded r obj) :
    (∃ obj, membersRepeat obj = false ∧ p = pure obj) ∨ ∃ response, p = .stop response := by
  cases p with
  | ret obj => exact .inl ⟨obj, (leads Store.newMemoryBackend).2.1, rfl⟩
  | stop response => exact .inr ⟨response, rfl⟩
  | call => exact none.1.elim

theorem reads_addsNone {h : Handler α} (reads : h.Only ReadOnly) :
    h.Only (AddsNone exec (listsSum org sum)) :=
  reads.mono fun _ only s place listed => by rwa [only.exec s] at listed

theorem addsNone_collectManifest :
    (collectManifest org raw).Only (AddsNone exec (listsSum org sum)) :=
  (within_collectManifest : (collectManifest org raw).Only (Within org ⟨[], []⟩)).mono fun _ within => within.addsNone nofun

theorem addsNone_overwrite : (match previous with
      | none => pure created
      | some raw => do collectManifest org raw; return overwritten : Handler Response).Only
      (AddsNone exec (listsSum org sum)) := by
  cases previous with
  | none => exact only_pure _
  | some raw => exact addsNone_collectManifest.bind fun _ => only_pure _

theorem careful_request (request : CookbookWrite) :
    (request.handler files org).Careful exec (hasFile org sum) (listsSum org sum) false := by
  cases stores : storesManifest request with
  | false => exact (addsNone_of_not_stores stores).careful
  | true =>
    cases request with
    | deleteVersion | deleteArtifact | putFile | createSandbox | commitSandbox => cases stores
    | putVersion r name version =>
      refine careful_reading readOnly_reads.only_resolveOrg fun _ => ?_
      rcases manifest_cases only_cookbookManifest fun s =>
        @leads_cookbookManifest r name version s _ trivial with
        ⟨obj, distinct, read⟩ | ⟨response, read⟩
      · rw [read]
        refine careful_checked (fun listed => ?_) fun unlisted => ?_
        · exact careful_reading readOnly_reads.only_get fun _ => careful_add fun _ =>
            addsNone_overwrite
        · have put : (Org.put org cookbooksColl (cookbookKey name version) (storedObject obj)).Only
              (AddsNone exec (listsSum org sum)) := only_perform (addsNone_put distinct unlisted)
          exact ((reads_addsNone readOnly_reads.only_get).bind fun _ => put.bind fun _ => addsNone_overwrite).careful
      · rw [read]
        trivial
    | putArtifact r name ident =>
      refine careful_reading readOnly_reads.only_resolveOrg fun _ =>
        careful_reading readOnly_reads.only_get fun _ =>
        careful_reading only_refuseIf fun _ => ?_
      rcases manifest_cases only_artifactManifest fun s => @leads_artifactManifest r s _ trivial with
        ⟨obj, distinct, read⟩ | ⟨response, read⟩
      · rw [read]
        refine careful_checked (fun listed => careful_add fun _ => only_pure _) fun unlisted => ?_
        have put : (Org.put org artifactsColl (cookbookKey name ident) (storedObject obj)).Only
            (AddsNone exec (listsSum org sum)) := only_perform (addsNone_put distinct unlisted)
        exact (put.bind fun _ => only_pure _).careful
      · rw [read]
        trivial

theorem adopts_request (request : CookbookWrite) :
    (request.handler files org).Adopts exec (hasFile org sum) (listsSum org sum) := by
  have orgThere : (resolveOrg org).Only (AddsNone exec (listsSum org sum)) :=
    reads_addsNone readOnly_reads.only_resolveOrg
  have get (coll key : GoString) : (Org.get org coll key).Only (AddsNone exec (listsSum org sum)) :=
    reads_addsNone readOnly_reads.only_get
  have checks (sums : List GoString) : (requireBlobs org notUploaded sums).Only (AddsNone exec (listsSum org sum)) :=
    reads_addsNone (reads_requireBlobs sums)
  cases stores : storesManifest request with
  | false => exact (addsNone_of_not_stores stores).adopts
  | true =>
    cases request with
    | deleteVersion | deleteArtifact | putFile | createSandbox | commitSandbox => cases stores
    | putVersion r name version =>
      exact orgThere.adopting fun _ => only_cookbookManifest.adopting fun _ =>
        (checks _).adopting fun _ =>
        (get _ _).adopting fun previous =>
          adopts_add (fun _ there => there) (fun _ _ => finds_overwrite.clears) fun _ =>
        addsNone_overwrite
    | putArtifact r name ident =>
      exact orgThere.adopting fun _ => (get _ _).adopting fun _ => only_refuseIf.adopting fun _ =>
        only_artifactManifest.adopting fun _ => (checks _).adopting fun _ =>
        adopts_add (fun _ there => there) (fun _ _ => trivial) fun _ => only_pure _

abbrev FileJournal := Journal CookbookWrite StoreCall.Result Response Response Store

/-- No request that stores a manifest is under way together with another that may delete files. -/
abbrev FilesApart : Allows CookbookWrite StoreCall.Result Response Response Store :=
  Journal.keptApart storesManifest collectsFiles

/-- What the manifests list is there, at any time, when requests that store manifests and requests that may
delete files are kept apart. -/
theorem files_kept_apart {start : Store} {j : FileJournal}
    (reached : Journal.Reaches exec (handler files org) FilesApart (.initial start) j)
    (backed : ∀ coll ∈ manifestColls, ∀ key raw sums, start.get org coll key = some raw → storedChecksums raw = some sums →
      ∀ sum ∈ sums, start.hasBlob org sum) :
    ∀ coll ∈ manifestColls, ∀ key raw sums, j.state.get org coll key = some raw →
      storedChecksums raw = some sums →
      ∀ sum ∈ sums, j.state.hasBlob org sum := by
  intro coll mem key raw sums found reads sum listed
  have each (request : CookbookWrite) (s : Store) : Journal.Collects storesManifest collectsFiles exec (hasFile org sum)
      (listsSum org sum) request s (request.handler files org) :=
    ⟨(careful_request request).weaken nofun, adopts_request request, fun _ _ => clears_request request,
      addsNone_of_not_stores, fun collects => spares_of_saves (saves_of_not_collects collects)⟩
  have initial (place : Place) (listed : listsSum org sum start place) : hasFile org sum start := by
    cases found : start.get org place.1 place.2 with
    | none => simp [listsSum, found] at listed
    | some raw =>
      cases reads : storedChecksums raw with
      | none => simp [listsSum, found, reads] at listed
      | some sums =>
        refine backed place.1 place.1.2 place.2 raw sums found reads sum ?_
        simpa [listsSum, found, reads] using listed
  refine reached.backed each initial (⟨coll, mem⟩, key) ?_
  simpa [listsSum, found, reads] using listed

section Races

def oneArtifact : Store := filesAfter ((sharesFile []).take 2)

def putsSecond : CookbookWrite := .putArtifact (listsFile []) ops (lit "2")

def deletesFirst : CookbookWrite := .deleteArtifact (creates []) ops (lit "1")

def listsInSecond (s : Store) : Bool :=
  ((s.get acme artifactsColl (cookbookKey ops (lit "2"))).bind storedChecksums).any fun sums =>
    sums.contains fileSum

theorem exists_of_listsInSecond {s : Store} (listed : listsInSecond s) :
    ∃ raw sums, s.get acme artifactsColl (cookbookKey ops (lit "2")) = some raw ∧
      storedChecksums raw = some sums ∧
      fileSum ∈ sums := by
  unfold listsInSecond at listed
  cases found : s.get acme artifactsColl (cookbookKey ops (lit "2")) with
  | none => simp [found] at listed
  | some raw =>
    cases reads : storedChecksums raw with
    | none => simp [found, reads] at listed
    | some sums => exact ⟨raw, sums, rfl, reads, by simpa [found, reads] using listed⟩

theorem shared_file_stays :
    ∃ j : FileJournal, Journal.Reaches exec (handler plainFiles acme) FilesApart (.initial oneArtifact) j ∧
      (∀ entry ∈ j.entries, entry.rest.returned) ∧ listsInSecond j.state ∧ j.state.hasBlob acme fileSum := by
  have closed : (Journal.moves exec (handler plainFiles acme) FilesApart (.initial oneArtifact)
      [.start putsSecond, .go 0, .start (.putFile (creates []) fileSum), .go 1, .go 0, .go 1, .start deletesFirst, .go 0,
        .go 0, .go 0, .go 0, .go 0]).map
      (fun j => decide ((∀ entry ∈ j.entries, entry.rest.returned) ∧ listsInSecond j.state)) = some true := by decide +kernel
  obtain ⟨j, made, returned, listed⟩ := exists_of_decided closed
  have reached := Journal.reaches_of_moves made
  have session : CookbookSession ManifestInRange acmeAlone oneArtifact :=
    Session.all .start fun request mem _ => sharesFile_inRange request (List.mem_of_mem_take mem)
  have backed : Backed oneArtifact := backed_of_session (fun _ _ _ _ => rfl) session
  obtain ⟨raw, sums, found, reads, mem⟩ := exists_of_listsInSecond listed
  refine ⟨j, reached, returned, listed,
    files_kept_apart reached ?_ artifactsColl (by decide) _ raw sums found reads _ mem⟩
  exact fun coll mem key raw sums found reads sum listed => backed.hasBlob mem found reads listed

theorem shared_file_lost :
    ∃ j : FileJournal, Journal.Reaches exec (handler plainFiles acme) Journal.anyOrder (.initial oneArtifact) j ∧
      (∀ entry ∈ j.entries, entry.rest.returned) ∧
      ∃ raw sums, j.state.get acme artifactsColl (cookbookKey ops (lit "2")) = some raw ∧
        storedChecksums raw = some sums ∧
        fileSum ∈ sums ∧ j.state.hasBlob acme fileSum = false := by
  have closed : (Journal.moves exec (handler plainFiles acme) Journal.anyOrder (.initial oneArtifact)
      [.start putsSecond, .go 0, .go 0, .start deletesFirst, .go 0, .go 0, .go 0, .go 0, .go 0, .go 1, .go 0]).map
      (fun j => decide ((∀ entry ∈ j.entries, entry.rest.returned) ∧ listsInSecond j.state ∧
        j.state.hasBlob acme fileSum = false)) = some true := by decide +kernel
  obtain ⟨j, made, returned, listed, gone⟩ := exists_of_decided closed
  obtain ⟨raw, sums, found, reads, mem⟩ := exists_of_listsInSecond listed
  exact ⟨j, Journal.reaches_of_moves made, returned, raw, sums, found, reads, mem, gone⟩

end Races

end CincServer.Proof.Api
