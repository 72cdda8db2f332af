import CincServer.Store.Memory

/-!
# Reads of the in-memory backend after a write
-/

namespace CincServer.Proof.Store
open CincServer.Store Go
open Std.ExtTreeMap (ext_getElem? getD_insert getElem?_insert erase_empty getElem?_erase getD_erase mem_keys)
open MemoryBackend (delete createOrg deleteOrg putBlob blob blobsOf deleteBlob create listOrgs hasOrg)

variable {V : Type}

theorem getD_modify {W : Type} {f : W → W} {zero : W} (fixed : f zero = zero) (m : GoMap W)
    (key other : GoString) :
    (m.modify key f).getD other zero = if key = other then f (m.getD key zero) else m.getD other zero := by
  rw [Std.ExtTreeMap.getD_modify, Std.ExtTreeMap.getD_eq_getD_getElem? (a := key)]
  simp only [Std.compare_eq_iff_eq]
  cases m[key]? <;> simp [fixed]

theorem modify_empty {W : Type} (key : GoString) (f : W → W) : (∅ : GoMap W).modify key f = ∅ := by
  refine ext_getElem? fun other => ?_
  simp [Std.ExtTreeMap.getElem?_modify]

theorem size_pos {W : Type} (m : GoMap W) :
    0 < m.size ↔ ∃ (key : GoString) (val : W), m[key]? = some val := by
  rw [Nat.pos_iff_ne_zero, Ne, ← Std.ExtTreeMap.eq_empty_iff_size_eq_zero,
    Std.ExtTreeMap.eq_empty_iff_forall_not_mem]
  simp only [Std.ExtTreeMap.mem_iff_isSome_getElem?, Option.isSome_iff_exists, not_forall, not_not]

variable (m : MemoryBackend V)

theorem objects_set (org coll key : GoString) (val : V) (org' coll' : GoString) :
    (m.set org coll key val).objects org' coll' =
      if org = org' ∧ coll = coll' then (m.objects org coll).insert key val else m.objects org' coll' := by
  simp only [MemoryBackend.set, MemoryBackend.objects, getD_insert, Std.compare_eq_iff_eq]
  by_cases sameOrg : org = org'
  · subst sameOrg
    simp [getD_insert]
  · simp [sameOrg]

theorem get_set (org coll key : GoString) (val : V) (org' coll' key' : GoString) :
    (m.set org coll key val).get org' coll' key' =
      if org = org' ∧ coll = coll' ∧ key = key' then some val else m.get org' coll' key' := by
  simp only [MemoryBackend.get, objects_set]
  by_cases here : org = org' ∧ coll = coll'
  · obtain ⟨rfl, rfl⟩ := here
    simp [getElem?_insert]
  · simp [here, ← and_assoc]

theorem get_delete (org coll key org' coll' key' : GoString) :
    (m.delete org coll key).1.get org' coll' key' =
      if org = org' ∧ coll = coll' ∧ key = key' then none else m.get org' coll' key' := by
  unfold delete
  cases found : m.get org coll key with
  | none =>
    split_ifs with here
    · obtain ⟨rfl, rfl, rfl⟩ := here
      exact found
    · rfl
  | some old =>
    have inner (colls : GoMap (GoMap V)) := getD_modify (f := fun keys : GoMap V => keys.erase key)
      erase_empty colls coll
    have outer := getD_modify (f := fun colls : GoMap (GoMap V) => colls.modify coll fun keys => keys.erase key)
      (modify_empty coll _) m.data org
    simp only [MemoryBackend.get, MemoryBackend.objects, outer]
    by_cases sameOrg : org = org'
    · subst sameOrg
      rw [if_pos rfl, inner]
      by_cases sameColl : coll = coll'
      · subst sameColl
        simp [getElem?_erase]
      · simp [sameColl]
    · simp [sameOrg]

theorem get_createOrg (name org coll key : GoString) :
    (m.createOrg name).1.get org coll key = m.get org coll key := by
  unfold createOrg
  split <;> rfl

theorem get_deleteOrg (name org coll key : GoString) : (m.deleteOrg name).1.get org coll key =
      if m.hasOrg name ∧ name = org then none else m.get org coll key := by
  unfold deleteOrg
  cases m.hasOrg name with
  | false => simp
  | true =>
    have rest : (m.data.erase name).getD org ∅ = if name = org then ∅ else m.data.getD org ∅ := by
      simp [getD_erase]
    by_cases same : name = org
    · simp [MemoryBackend.get, MemoryBackend.objects, same]
    · simp [MemoryBackend.get, MemoryBackend.objects, rest, same]

theorem blob_putBlob (org checksum : GoString) (data : V) (org' checksum' : GoString) :
    (m.putBlob org checksum data).blob org' checksum' =
      if org = org' ∧ checksum = checksum' then some data else m.blob org' checksum' := by
  simp only [putBlob, blob, blobsOf, getD_insert, Std.compare_eq_iff_eq]
  by_cases sameOrg : org = org'
  · subst sameOrg
    simp [getElem?_insert]
  · simp [sameOrg]

theorem blob_deleteBlob (org checksum org' checksum' : GoString) :
    (m.deleteBlob org checksum).blob org' checksum' =
      if org = org' ∧ checksum = checksum' then none else m.blob org' checksum' := by
  have rest := getD_modify (f := fun blobs : GoMap V => blobs.erase checksum) erase_empty m.blobs org
  simp only [deleteBlob, blob, blobsOf, rest]
  by_cases sameOrg : org = org'
  · subst sameOrg
    simp [getElem?_erase]
  · simp [sameOrg]

theorem blob_createOrg (name org checksum : GoString) :
    (m.createOrg name).1.blob org checksum = m.blob org checksum := by
  unfold createOrg
  split <;> rfl

theorem blob_deleteOrg (name org checksum : GoString) :
    (m.deleteOrg name).1.blob org checksum = if m.hasOrg name ∧
      name = org then none else m.blob org checksum := by
  unfold deleteOrg
  cases m.hasOrg name with
  | false => simp
  | true =>
    have rest : (m.blobs.erase name).getD org ∅ = if name = org then ∅ else m.blobs.getD org ∅ := by
      simp [getD_erase]
    by_cases same : name = org
    · simp [blob, blobsOf, same]
    · simp [blob, blobsOf, rest, same]

theorem blob_delete (org coll key org' checksum : GoString) :
    (m.delete org coll key).1.blob org' checksum = m.blob org' checksum := by
  unfold delete
  split <;> rfl

theorem blob_create (org coll key : GoString) (val : V) (org' checksum : GoString) :
    (m.create org coll key val).1.blob org' checksum = m.blob org' checksum := by
  unfold create
  split <;> rfl

theorem mem_listOrgs {m : MemoryBackend V} {name : GoString} (present : m.hasOrg name) :
    name ∈ m.listOrgs := by
  rw [listOrgs, (perm_sortStrings _).mem_iff, mem_keys]
  by_contra absent
  rw [hasOrg, Std.ExtTreeMap.getD_eq_fallback absent] at present
  cases present

theorem hasOrg_createOrg (name org : GoString) :
    (m.createOrg name).1.hasOrg org = (name == org || m.hasOrg org) := by
  unfold createOrg
  split
  · next present =>
    by_cases same : name = org
    · simp [← same, present]
    · simp [same]
  · by_cases same : name = org
    · simp [hasOrg, same]
    · simp [hasOrg, getD_insert, same]

theorem hasOrg_deleteOrg (name org : GoString) :
    (m.deleteOrg name).1.hasOrg org = (name != org && m.hasOrg org) := by
  unfold deleteOrg
  split
  · next absent =>
    by_cases same : name = org
    · simp [← same, Bool.eq_false_iff.mpr (by simpa using absent)]
    · simp [same]
  · by_cases same : name = org
    · simp [hasOrg, same]
    · simp [hasOrg, getD_erase, same]

/-! ## What a rollback of the memory backend takes back -/

open Lib.Machine

structure Readable (V : Type) where
  object : GoString → GoString → GoString → Option V
  blob : GoString → GoString → Option V
  org : GoString → Bool

def readable (m : MemoryBackend V) : Readable V := ⟨m.get, m.blob, m.hasOrg⟩

def Readable.after (r : Readable V) : Op V → Readable V
  | .put org coll key val | .create org coll key val =>
    { r with object := fun org' coll' key' =>
        if org = org' ∧ coll = coll' ∧ key = key' then some val else r.object org' coll' key' }
  | .delete org coll key =>
    { r with object := fun org' coll' key' =>
        if org = org' ∧ coll = coll' ∧ key = key' then none else r.object org' coll' key' }
  | .putBlob org checksum data =>
    { r with blob := fun org' checksum' =>
        if org = org' ∧ checksum = checksum' then some data else r.blob org' checksum' }
  | .deleteBlob org checksum =>
    { r with blob := fun org' checksum' =>
        if org = org' ∧ checksum = checksum' then none else r.blob org' checksum' }
  | .createOrg name => { r with org := fun name' => if name = name' then true else r.org name' }
  | .deleteOrg name =>
    ⟨fun org coll key => if name = org then none else r.object org coll key,
      fun org checksum => if name = org then none else r.blob org checksum,
      fun name' => if name = name' then false else r.org name'⟩
  | .get .. | .keys .. | .range .. | .collections _ | .blob .. | .hasBlob .. | .listOrgs | .hasOrg _ => r

variable [DecidableEq V] {m : MemoryBackend V} {fn : TxFunc V} {interleaving : List (TxStep V)}

def acknowledged (m : MemoryBackend V) : List (Op V) → List (Op V)
  | [] => []
  | op :: ops => (if wrote op (m.step op).2 then [op] else []) ++ acknowledged (m.step op).1 ops

def creation : TxFunc Nat := .call (.createOrg (lit "acme")) fun reply =>
  match reply with
  | .failed err => .ret (some err)
  | _ => .ret none

end CincServer.Proof.Store
