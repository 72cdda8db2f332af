import CincServer.Proof.Search.Lexing
import CincServer.Search.Index

/-!
# What an inverted index holds
-/

namespace CincServer.Proof.Search
open CincServer.Search CincServer.Json Go
open Std.ExtTreeMap (getD_eq_getD_getElem? getElem?_insert getD_erase getD_insert getElem?_erase isEmpty_iff
  mem_toList_iff_getElem?_eq_some mem_erase mem_insert ext_getElem?)

section

variable {field value id field' other : GoString} {c : CollIndex} {values : List GoString}

abbrev Corpus := GoMap Fields

def Filled (fields : Fields) : Prop :=
  ∀ (field : GoString) (values : List GoString), fields[field]? = some values → values ≠ []

def posting (c : CollIndex) (field value : GoString) : DocIDs :=
  (c.postings.getD field ∅).getD value ∅

def docs (c : CollIndex) (field : GoString) : DocIDs := c.fieldDocs.getD field ∅

def Pruned (sets : GoMap DocIDs) : Prop :=
  ∀ (key : GoString) (ids : DocIDs), sets[key]? = some ids → ids ≠ ∅

structure Tidy (c : CollIndex) : Prop where
  fields : ∀ (field : GoString) (byValue : GoMap DocIDs), c.postings[field]? = some byValue →
    byValue ≠ ∅ ∧ Pruned byValue
  fieldDocs : Pruned c.fieldDocs

structure Holds (c : CollIndex) (corpus : Corpus) : Prop where
  filled : ∀ (id : GoString) (fields : Fields), corpus[id]? = some fields → Filled fields
  tidy : Tidy c
  all : ∀ id, id ∈ c.all ↔ id ∈ corpus
  terms : ∀ id : GoString, c.docTerms[id]? = corpus[id]?.map CollIndex.termsOf
  postings : ∀ field value id, id ∈ posting c field value ↔
    ∃ fields, corpus[id]? = some fields ∧ value ∈ Fields.values fields field
  fieldDocs : ∀ field id, id ∈ docs c field ↔ ∃ fields, corpus[id]? = some fields ∧ field ∈ fields

theorem mem_values {fields : Fields} :
    value ∈ Fields.values fields field ↔ ∃ values, fields[field]? = some values ∧
      value ∈ values := by
  rw [Fields.values, getD_eq_getD_getElem?]
  cases fields[field]? <;> simp

theorem Filled.mem_iff {fields : Fields} (filled : Filled fields) (field : GoString) :
    field ∈ fields ↔ ∃ value, value ∈ Fields.values fields field := by
  rw [mem_iff_exists]
  simp only [mem_values]
  constructor
  · rintro ⟨values, found⟩
    obtain ⟨value, member⟩ := List.exists_mem_of_ne_nil values (filled field values found)
    exact ⟨value, values, found, member⟩
  · rintro ⟨value, values, found, member⟩
    exact ⟨values, found⟩

theorem filled_append {fields : Fields} (filled : Filled fields) (key val : GoString) :
    Filled (append fields key val) := by
  intro field values found
  rw [append, getElem?_insert] at found
  split_ifs at found with here
  · cases found
    simp
  · exact filled field values found

section Flattening
variable [Unicode]

theorem filled_addLeaf {fields : Fields} (filled : Filled fields) (path : List GoString)
    (v : Value) :
    Filled (addLeaf fields path v) := by
  unfold addLeaf
  split_ifs with top
  · exact filled
  · unfold add
    generalize suffixKeys [] path = keys
    induction keys generalizing fields with
    | nil => exact filled
    | cons key keys ih => exact ih (filled_append filled key _)

mutual

theorem filled_walk (path : List GoString) (v : Value) {fields : Fields} (filled : Filled fields) :
    Filled (walk path v fields) := by
  cases v with
  | object members => exact filled_walkMembers path members filled
  | array elems => exact filled_walkElems path elems filled
  | _ => exact filled_addLeaf filled path _

theorem filled_walkMembers (path : List GoString) (members : List (GoString × Value))
    {fields : Fields}
    (filled : Filled fields) : Filled (walkMembers path members fields) := by
  match members with
  | [] => exact filled
  | (name, v) :: rest =>
    exact filled_walkMembers path rest (filled_walk (toLower name :: path) v filled)

theorem filled_walkElems (path : List GoString) (elems : List Value) {fields : Fields}
    (filled : Filled fields) : Filled (walkElems path elems fields) := by
  match elems with
  | [] => exact filled
  | v :: rest => exact filled_walkElems path rest (filled_walk path v filled)

end

theorem filled_flatten (doc : Members) : Filled (flatten doc) :=
  filled_walk [] (.object doc) fun _ _ found => by simp at found

theorem filled_searchFields {merge : Bool} {raw : Raw} {fields : Fields}
    (searchable : searchFields merge raw = some fields) : Filled fields := by
  obtain ⟨doc, -, rfl⟩ := Option.map_eq_some_iff.mp searchable
  exact filled_flatten _

end Flattening

theorem getD_eraseFrom (sets : GoMap DocIDs) (key id other : GoString) :
    (eraseFrom sets key id).getD other ∅ =
      if key = other then (sets.getD key ∅).erase id else sets.getD other ∅ := by
  unfold eraseFrom
  rw [getD_eq_getD_getElem? (a := key)]
  cases found : sets[key]? with
  | none =>
    split_ifs with here
    · subst here
      simp [getD_eq_getD_getElem?, found]
    · rfl
  | some ids =>
    dsimp only
    split_ifs with empty here here
    · subst here
      simp [empty]
    · simp [getD_erase, here]
    · subst here
      simp
    · simp [getD_insert, here]

theorem Pruned.eraseFrom {sets : GoMap DocIDs} (pruned : Pruned sets) (key id : GoString) :
    Pruned (eraseFrom sets key id) := by
  intro other ids held
  unfold CincServer.Search.eraseFrom at held
  cases found : sets[key]? with
  | none =>
    rw [found] at held
    exact pruned other ids held
  | some stored =>
    rw [found] at held
    dsimp only at held
    split_ifs at held with empty
    · rw [getElem?_erase] at held
      split_ifs at held with here
      exact pruned other ids held
    · rw [getElem?_insert] at held
      split_ifs at held with here
      · cases held
        exact empty
      · exact pruned other ids held

theorem getD_unlessEmpty (m : GoMap (GoMap DocIDs)) (key other : GoString) (inner : GoMap DocIDs) :
    (if inner.isEmpty then m.erase key else m.insert key inner).getD other ∅ =
      if key = other then inner else m.getD other ∅ := by
  split_ifs with empty here here
  · simp [here, isEmpty_iff.mp empty]
  · simp [getD_erase, here]
  · simp [here]
  · simp [getD_insert, here]

theorem posting_retractTerm (id : GoString) (c : CollIndex) (t : IndexTerm)
    (field value : GoString) :
    posting (c.retractTerm id t) field value =
      if t = ⟨field, value⟩ then (posting c field value).erase id else posting c field value := by
  obtain ⟨tField, tValue⟩ := t
  simp only [posting, CollIndex.retractTerm, IndexTerm.mk.injEq]
  cases found : c.postings[tField]? with
  | none =>
    by_cases here : tField = field ∧ tValue = value
    · obtain ⟨rfl, rfl⟩ := here
      simp [getD_eq_getD_getElem?, found]
    · simp [here]
  | some byValue =>
    have stored : c.postings.getD tField ∅ = byValue := by
      simp [getD_eq_getD_getElem?, found]
    dsimp only
    rw [getD_unlessEmpty]
    by_cases sameField : tField = field
    · subst sameField
      rw [if_pos rfl, getD_eraseFrom, stored]
      by_cases sameValue : tValue = value <;> simp [sameValue]
    · simp [sameField]

theorem docs_retractTerm (id : GoString) (c : CollIndex) (t : IndexTerm) (field : GoString) :
    docs (c.retractTerm id t) field =
      if t.field = field then (docs c field).erase id else docs c field := by
  rw [docs, CollIndex.retractTerm, getD_eraseFrom]
  split_ifs with here
  · rw [here, docs]
  · rfl

theorem Tidy.retractTerm (tidy : Tidy c) (id : GoString) (t : IndexTerm) :
    Tidy (c.retractTerm id t) where
  fields := by
    intro field byValue held
    simp only [CollIndex.retractTerm] at held
    cases found : c.postings[t.field]? with
    | none =>
      rw [found] at held
      exact tidy.fields field byValue held
    | some stored =>
      rw [found] at held
      dsimp only at held
      split_ifs at held with empty
      · rw [getElem?_erase] at held
        split_ifs at held with here
        exact tidy.fields field byValue held
      · rw [getElem?_insert] at held
        split_ifs at held with here
        · cases held
          refine ⟨fun same => empty (isEmpty_iff.mpr same), ?_⟩
          exact (tidy.fields t.field stored found).2.eraseFrom t.value id
        · exact tidy.fields field byValue held
  fieldDocs := tidy.fieldDocs.eraseFrom t.field id

structure Retracted (id : GoString) (terms : List IndexTerm) (c c' : CollIndex) : Prop where
  tidy : Tidy c → Tidy c'
  merge : c'.merge = c.merge
  all : c'.all = c.all
  docTerms : c'.docTerms = c.docTerms
  posting : ∀ field value, posting c' field value =
    if ⟨field, value⟩ ∈ terms then (posting c field value).erase id else posting c field value
  docs : ∀ field, docs c' field =
    if ∃ t ∈ terms, t.field = field then (docs c field).erase id else docs c field

theorem retracted_foldl (id : GoString) (terms : List IndexTerm) (c : CollIndex) :
    Retracted id terms c (terms.foldl (CollIndex.retractTerm id) c) := by
  induction terms generalizing c with
  | nil => exact ⟨fun tidy => tidy, rfl, rfl, rfl, by simp, by simp⟩
  | cons t terms ih =>
    have rest := ih (c.retractTerm id t)
    refine ⟨fun tidy => rest.tidy (tidy.retractTerm id t), rest.merge, rest.all,
      rest.docTerms, ?_, ?_⟩
    · intro field value
      rw [List.foldl_cons, rest.posting, posting_retractTerm]
      by_cases here : ⟨field, value⟩ = t <;> by_cases later : ⟨field, value⟩ ∈ terms <;>
        simp [here, later, eq_comm (a := t)]
    · intro field
      rw [List.foldl_cons, rest.docs, docs_retractTerm]
      by_cases here : t.field = field <;> by_cases later : ∃ t ∈ terms, t.field = field <;> simp [here, later]

theorem mem_termsOf {fields : Fields} :
    ⟨field, value⟩ ∈ CollIndex.termsOf fields ↔ value ∈ Fields.values fields field := by
  rw [mem_values]
  simp only [CollIndex.termsOf, List.mem_flatMap, List.mem_map, IndexTerm.mk.injEq, Prod.exists,
    mem_toList_iff_getElem?_eq_some]
  constructor
  · rintro ⟨_, values, found, _, member, rfl, rfl⟩
    exact ⟨values, found, member⟩
  · rintro ⟨values, found, member⟩
    exact ⟨field, values, found, value, member, rfl, rfl⟩

variable {corpus : Corpus}

theorem Holds.retract (holds : Holds c corpus) (id : GoString) : Tidy (c.retract id) ∧
      (∀ field value, posting (c.retract id) field value = (posting c field value).erase id) ∧
      ∀ field, docs (c.retract id) field = (docs c field).erase id := by
  have out := retracted_foldl id (c.docTerms.getD id []) c
  have recorded : c.docTerms.getD id [] = (corpus[id]?.map CollIndex.termsOf).getD [] := by
    rw [getD_eq_getD_getElem?, holds.terms]
  refine ⟨⟨(out.tidy holds.tidy).fields, (out.tidy holds.tidy).fieldDocs⟩, ?_, ?_⟩
  · intro field value
    refine (out.posting field value).trans ?_
    split_ifs with listed
    · rfl
    · refine (Finset.erase_eq_of_notMem fun member => listed ?_).symm
      obtain ⟨fields, stored, carries⟩ := (holds.postings field value id).mp member
      rw [recorded, stored]
      exact mem_termsOf.mpr carries
  · intro field
    refine (out.docs field).trans ?_
    split_ifs with listed
    · rfl
    · refine (Finset.erase_eq_of_notMem fun member => listed ?_).symm
      obtain ⟨fields, stored, carries⟩ := (holds.fieldDocs field id).mp member
      obtain ⟨value, carried⟩ := ((holds.filled id fields stored).mem_iff field).mp carries
      refine ⟨⟨field, value⟩, ?_, rfl⟩
      rw [recorded, stored]
      exact mem_termsOf.mpr carried

theorem retract_docTerms (c : CollIndex) (id : GoString) :
    (c.retract id).docTerms = c.docTerms.insert id [] := by
  rw [CollIndex.retract, (retracted_foldl id (c.docTerms.getD id []) c).docTerms]

theorem retract_all (c : CollIndex) (id : GoString) : (c.retract id).all = c.all :=
  (retracted_foldl id (c.docTerms.getD id []) c).all

theorem retract_merge (c : CollIndex) (id : GoString) : (c.retract id).merge = c.merge :=
  (retracted_foldl id (c.docTerms.getD id []) c).merge

theorem Holds.remove (holds : Holds c corpus) (id : GoString) :
    Holds (c.remove id) (corpus.erase id) := by
  obtain ⟨tidy, postings, fieldDocs⟩ := holds.retract id
  refine ⟨?_, ⟨tidy.fields, tidy.fieldDocs⟩, ?_, ?_, ?_, ?_⟩
  · intro other fields stored
    rw [getElem?_erase] at stored
    split_ifs at stored
    exact holds.filled other fields stored
  · intro other
    simp only [CollIndex.remove, retract_all, Finset.mem_erase, holds.all, mem_erase]
    simp [eq_comm (a := other)]
  · intro other
    simp only [CollIndex.remove, retract_docTerms, getElem?_erase, getElem?_insert, holds.terms]
    split_ifs <;> rfl
  · intro field value other
    refine (Finset.ext_iff.mp (postings field value) other).trans ?_
    rw [Finset.mem_erase, holds.postings, getElem?_erase]
    by_cases here : id = other <;> simp [here, eq_comm (a := other)]
  · intro field other
    refine (Finset.ext_iff.mp (fieldDocs field) other).trans ?_
    rw [Finset.mem_erase, holds.fieldDocs, getElem?_erase]
    by_cases here : id = other <;> simp [here, eq_comm (a := other)]

theorem getD_putValues (id : GoString) (byValue : GoMap DocIDs) (values : List GoString)
    (v : GoString) :
    (CollIndex.putValues id byValue values).getD v ∅ =
      if v ∈ values then insert id (byValue.getD v ∅) else byValue.getD v ∅ := by
  unfold CollIndex.putValues
  induction values generalizing byValue with
  | nil => simp
  | cons value values ih =>
    rw [List.foldl_cons, ih, getD_insert]
    by_cases here : value = v <;> by_cases later : v ∈ values <;> simp [here, later, eq_comm (a := v)]

theorem Pruned.putValues {byValue : GoMap DocIDs} (pruned : Pruned byValue) (id : GoString)
    (values : List GoString) : Pruned (CollIndex.putValues id byValue values) := by
  unfold CollIndex.putValues
  induction values generalizing byValue with
  | nil => exact pruned
  | cons value values ih =>
    refine ih fun key ids held => ?_
    rw [getElem?_insert] at held
    split_ifs at held with here
    · cases held
      exact Finset.insert_ne_empty id _
    · exact pruned key ids held

theorem mem_posting_putField : other ∈ posting (c.putField id field values) field' value ↔
      other ∈ posting c field' value ∨ other = id ∧ field' = field ∧ value ∈ values := by
  simp only [posting, CollIndex.putField, getD_insert, Std.compare_eq_iff_eq]
  by_cases here : field = field'
  · subst here
    by_cases carried : value ∈ values <;> simp [getD_putValues, carried, or_comm]
  · simp [here, Ne.symm here]

theorem mem_docs_putField :
    other ∈ docs (c.putField id field values) field' ↔ other ∈ docs c field' ∨ other = id ∧
      field' = field := by
  simp only [docs, CollIndex.putField, getD_insert, Std.compare_eq_iff_eq]
  by_cases here : field = field'
  · simp [here, or_comm]
  · simp [here, Ne.symm here]

theorem Tidy.putField (tidy : Tidy c) (id field : GoString)
    (some : values ≠ []) : Tidy (c.putField id field values) where
  fields := by
    intro field' byValue held
    simp only [CollIndex.putField, getElem?_insert] at held
    split_ifs at held with here
    · obtain ⟨value, member⟩ := List.exists_mem_of_ne_nil values some
      have pruned : Pruned (c.postings.getD field ∅) := by
        rw [getD_eq_getD_getElem?]
        cases found : c.postings[field]? with
        | none => exact fun key ids held => by simp at held
        | some stored => exact (tidy.fields field stored found).2
      cases held
      refine ⟨fun empty => ?_, pruned.putValues id values⟩
      have written := getD_putValues id (c.postings.getD field ∅) values value
      rw [empty, if_pos member] at written
      exact Finset.insert_ne_empty id _ written.symm
    · exact tidy.fields field' byValue held
  fieldDocs := by
    intro field' ids held
    simp only [CollIndex.putField, getElem?_insert] at held
    split_ifs at held with here
    · cases held
      exact Finset.insert_ne_empty id _
    · exact tidy.fieldDocs field' ids held

structure Added (id : GoString) (entries : List (GoString × List GoString)) (c c' : CollIndex) :
    Prop where
  tidy : (∀ entry ∈ entries, entry.2 ≠ []) → Tidy c → Tidy c'
  merge : c'.merge = c.merge
  all : c'.all = c.all
  docTerms : c'.docTerms = c.docTerms
  posting : ∀ field value other, other ∈ posting c' field value ↔
    other ∈ posting c field value ∨ other = id ∧ ∃ values, (field, values) ∈ entries ∧ value ∈ values
  docs : ∀ field other, other ∈ docs c' field ↔ other ∈ docs c field ∨ other = id ∧ ∃ values, (field, values) ∈ entries

theorem added_foldl (id : GoString) (entries : List (GoString × List GoString)) (c : CollIndex) :
    Added id entries c (entries.foldl (fun c entry => c.putField id entry.1 entry.2) c) := by
  induction entries generalizing c with
  | nil => exact ⟨fun _ tidy => tidy, rfl, rfl, rfl, by simp, by simp⟩
  | cons entry entries ih =>
    obtain ⟨field, values⟩ := entry
    have rest := ih (c.putField id field values)
    refine ⟨?_, rest.merge, rest.all, rest.docTerms, ?_, ?_⟩
    · intro nonempty tidy
      exact rest.tidy (fun entry member => nonempty entry (by simp [member]))
        (tidy.putField id field (nonempty (field, values) (by simp)))
    · intro field' value other
      rw [List.foldl_cons, rest.posting, mem_posting_putField, or_assoc]
      simp only [List.mem_cons, Prod.mk.injEq, or_and_right, exists_or, and_assoc,
        exists_and_left, exists_eq_left, and_or_left]
    · intro field' other
      rw [List.foldl_cons, rest.docs, mem_docs_putField, or_assoc]
      simp only [List.mem_cons, Prod.mk.injEq, exists_or, exists_and_left, exists_eq, and_true,
        and_or_left]

theorem Holds.put (holds : Holds c corpus) (id : GoString)
    {fields : Fields} (filled : Filled fields) :
    Holds (c.put id fields) (corpus.insert id fields) := by
  obtain ⟨tidy, postings, fieldDocs⟩ := holds.retract id
  have added := added_foldl id fields.toList (c.retract id)
  have nonempty : ∀ entry ∈ fields.toList, entry.2 ≠ [] := fun entry member =>
    filled entry.1 entry.2 (mem_toList_iff_getElem?_eq_some.mp member)
  refine ⟨?_, ⟨(added.tidy nonempty tidy).fields, (added.tidy nonempty tidy).fieldDocs⟩, ?_, ?_,
    ?_, ?_⟩
  · intro other stored found
    rw [getElem?_insert] at found
    split_ifs at found with here
    · cases found
      exact filled
    · exact holds.filled other stored found
  · intro other
    simp only [CollIndex.put, added.all, retract_all, Finset.mem_insert, holds.all,
      mem_insert, Std.compare_eq_iff_eq, eq_comm (a := other)]
  · intro other
    simp only [CollIndex.put, added.docTerms, retract_docTerms, getElem?_insert, holds.terms]
    split_ifs <;> rfl
  · intro field value other
    refine (added.posting field value other).trans ?_
    rw [postings, Finset.mem_erase, holds.postings, getElem?_insert]
    simp only [mem_toList_iff_getElem?_eq_some, ← mem_values]
    by_cases here : id = other <;> simp [here, eq_comm (a := other)]
  · intro field other
    refine (added.docs field other).trans ?_
    rw [fieldDocs, Finset.mem_erase, holds.fieldDocs, getElem?_insert]
    simp only [mem_toList_iff_getElem?_eq_some, ← mem_iff_exists]
    by_cases here : id = other <;> simp [here, eq_comm (a := other)]

theorem holds_new (merge : Bool) : Holds (newCollIndex merge) ∅ := by
  refine ⟨?_, ⟨?_, ?_⟩, ?_, ?_, ?_, ?_⟩ <;> simp [newCollIndex, posting, docs, Pruned]

@[simp] theorem put_merge (c : CollIndex) (id : GoString) (fields : Fields) :
    (c.put id fields).merge = c.merge :=
  ((added_foldl id fields.toList (c.retract id)).merge).trans (retract_merge c id)

@[simp] theorem remove_merge (c : CollIndex) (id : GoString) : (c.remove id).merge = c.merge :=
  retract_merge c id

section Histories
variable [Unicode]

theorem putRaw_merge (c : CollIndex) (id : GoString) (raw : Raw) :
    (c.putRaw id raw).merge = c.merge := by
  unfold CollIndex.putRaw
  split <;> simp

def Corpus.apply (merge : Bool) (corpus : Corpus) : IndexOp → Corpus
  | .put id doc => corpus.insert id (flatten doc)
  | .putRaw id raw =>
    match searchFields merge raw with
    | none => corpus.erase id
    | some fields => corpus.insert id fields
  | .remove id => corpus.erase id

theorem Holds.apply (holds : Holds c corpus) (op : IndexOp) :
    Holds (c.apply op) (corpus.apply c.merge op) := by
  cases op with
  | put id doc => exact holds.put id (filled_flatten doc)
  | remove id => exact holds.remove id
  | putRaw id raw =>
    simp only [CollIndex.apply, CollIndex.putRaw, Corpus.apply]
    cases searchable : searchFields c.merge raw with
    | none => exact holds.remove id
    | some fields => exact holds.put id (filled_searchFields searchable)

theorem apply_merge (c : CollIndex) (op : IndexOp) : (c.apply op).merge = c.merge := by
  cases op with
  | put id doc => exact put_merge c id _
  | remove id => exact remove_merge c id
  | putRaw id raw => exact putRaw_merge c id raw

def indexed (merge : Bool) (history : List IndexOp) : CollIndex :=
  history.foldl CollIndex.apply (newCollIndex merge)

def contents (merge : Bool) (history : List IndexOp) : Corpus :=
  history.foldl (Corpus.apply merge) ∅

theorem holds_indexed (merge : Bool) (history : List IndexOp) :
    Holds (indexed merge history) (contents merge history) := by
  have run (c : CollIndex) (corpus : Corpus) (mode : c.merge = merge) (holds : Holds c corpus) :
      Holds (history.foldl CollIndex.apply c) (history.foldl (Corpus.apply merge) corpus) := by
    induction history generalizing c corpus with
    | nil => exact holds
    | cons op history ih =>
      have step := holds.apply op
      rw [mode] at step
      exact ih (c.apply op) _ ((apply_merge c op).trans mode) step
  exact run (newCollIndex merge) ∅ rfl (holds_new merge)

end Histories

theorem Holds.unique {c' : CollIndex} (left : Holds c corpus) (right : Holds c' corpus)
    (merge : c.merge = c'.merge) : c = c' := by
  have sets {sets sets' : GoMap DocIDs} (pruned : Pruned sets) (pruned' : Pruned sets')
      (same : ∀ key : GoString, sets.getD key ∅ = sets'.getD key ∅) : sets = sets' := by
    refine ext_getElem? fun key => ?_
    have here := same key
    rw [getD_eq_getD_getElem?, getD_eq_getD_getElem?] at here
    cases found : sets[key]? with
    | none =>
      cases found' : sets'[key]? with
      | none => rfl
      | some ids => exact absurd (by simpa [found, found'] using here.symm) (pruned' key ids found')
    | some ids =>
      cases found' : sets'[key]? with
      | none => exact absurd (by simpa [found, found'] using here) (pruned key ids found)
      | some ids' => simpa [found, found'] using here
  have postings : c.postings = c'.postings := by
    refine ext_getElem? fun field => ?_
    have same (value : GoString) : posting c field value = posting c' field value := by
      ext id
      rw [left.postings, right.postings]
    simp only [posting] at same
    rw [getD_eq_getD_getElem?, getD_eq_getD_getElem?] at same
    cases found : c.postings[field]? with
    | none =>
      cases found' : c'.postings[field]? with
      | none => rfl
      | some byValue =>
        obtain ⟨nonempty, pruned⟩ := right.tidy.fields field byValue found'
        refine absurd (sets pruned (fun _ _ held => by simp at held) fun value => ?_) nonempty
        simpa [found, found'] using (same value).symm
    | some byValue =>
      obtain ⟨nonempty, pruned⟩ := left.tidy.fields field byValue found
      cases found' : c'.postings[field]? with
      | none =>
        refine absurd (sets pruned (fun _ _ held => by simp at held) fun value => ?_) nonempty
        simpa [found, found'] using same value
      | some byValue' =>
        obtain ⟨-, pruned'⟩ := right.tidy.fields field byValue' found'
        exact congrArg some (sets pruned pruned' fun value => by simpa [found, found'] using same value)
  have fieldDocs : c.fieldDocs = c'.fieldDocs := by
    refine sets left.tidy.fieldDocs right.tidy.fieldDocs fun field => ?_
    ext id
    exact (left.fieldDocs field id).trans (right.fieldDocs field id).symm
  have docTerms : c.docTerms = c'.docTerms :=
    ext_getElem? fun id => by rw [left.terms, right.terms]
  have all : c.all = c'.all := by
    ext id
    rw [left.all, right.all]
  cases c
  cases c'
  simp_all

end

/-! ## Planning equals scanning -/

variable {q : Query} {a b : DocIDs}

def scan (q : Query) (corpus : Corpus) : DocIDs :=
  ((corpus.toList.filter fun entry => q.matchesFields entry.2).map Prod.fst).toFinset

theorem mem_scan {corpus : Corpus} {id : GoString} :
    id ∈ scan q corpus ↔ ∃ fields, corpus[id]? = some fields ∧ q.matchesFields fields := by
  simp only [scan, List.mem_toFinset, List.mem_map, List.mem_filter, Prod.exists,
    Std.ExtTreeMap.mem_toList_iff_getElem?_eq_some, exists_and_right, exists_eq_right]

theorem mem_foldl_union {α : Type} (ids : α → DocIDs) (entries : List α) (out : DocIDs)
    (id : GoString) :
    id ∈ entries.foldl (fun out entry => out ∪ ids entry) out ↔ id ∈ out ∨
      ∃ entry ∈ entries, id ∈ ids entry := by
  induction entries generalizing out with
  | nil => simp
  | cons entry entries ih => simp [ih, or_assoc]

theorem mem_matchValues {byValue : GoMap DocIDs} {pred : GoString → Bool} {id : GoString} :
    id ∈ matchValues byValue pred ↔ ∃ value, pred value ∧ id ∈ byValue.getD value ∅ := by
  have asUnion : matchValues byValue pred =
      byValue.toList.foldl (fun out entry => out ∪ if pred entry.1 then entry.2 else ∅) ∅ := by
    unfold matchValues
    congr 1
    funext out entry
    split_ifs <;> simp
  rw [asUnion, mem_foldl_union]
  simp only [Finset.notMem_empty, false_or, Prod.exists,
    Std.ExtTreeMap.mem_toList_iff_getElem?_eq_some, Std.ExtTreeMap.getD_eq_getD_getElem?]
  constructor
  · rintro ⟨value, ids, found, member⟩
    split_ifs at member with satisfies
    · exact ⟨value, satisfies, by simpa [found] using member⟩
    · simp at member
  · rintro ⟨value, satisfies, member⟩
    cases found : byValue[value]? with
    | none => simp [found] at member
    | some ids => exact ⟨value, ids, found, by simpa [satisfies, found] using member⟩

variable {c : CollIndex} {corpus : Corpus}

theorem Holds.mem_matchField (holds : Holds c corpus) (field : GoString) (pred : GoString → Bool)
    (id : GoString) :
    id ∈ (postingsView c).matchField field pred ↔
      ∃ fields, corpus[id]? = some fields ∧ (Fields.values fields field).any pred := by
  have carried (value : GoString) := holds.postings field value id
  simp only [posting] at carried
  simp only [postingsView, mem_matchValues, carried, List.any_eq_true]
  constructor
  · rintro ⟨value, satisfies, fields, stored, member⟩
    exact ⟨fields, stored, value, member, satisfies⟩
  · rintro ⟨fields, stored, value, member, satisfies⟩
    exact ⟨value, satisfies, fields, stored, member⟩

theorem Holds.mem_matchAny (holds : Holds c corpus) (pred : GoString → Bool) (id : GoString) :
    id ∈ (postingsView c).matchAny pred ↔
      ∃ fields, corpus[id]? = some fields ∧ fields.toList.any fun entry => entry.2.any pred := by
  have field : id ∈ (postingsView c).matchAny pred ↔
      ∃ field, id ∈ (postingsView c).matchField field pred := by
    simp only [postingsView, mem_foldl_union, Finset.notMem_empty, false_or, Prod.exists,
      Std.ExtTreeMap.mem_toList_iff_getElem?_eq_some, Std.ExtTreeMap.getD_eq_getD_getElem?]
    constructor
    · rintro ⟨field, byValue, found, member⟩
      exact ⟨field, by simpa [found] using member⟩
    · rintro ⟨field, member⟩
      cases found : c.postings[field]? with
      | none => simp [found, mem_matchValues] at member
      | some byValue => exact ⟨field, byValue, found, by simpa [found] using member⟩
  simp only [field, holds.mem_matchField, List.any_eq_true, mem_values, Prod.exists,
    Std.ExtTreeMap.mem_toList_iff_getElem?_eq_some]
  constructor
  · rintro ⟨field, fields, stored, value, ⟨values, found, member⟩, satisfies⟩
    exact ⟨fields, stored, field, values, found, value, member, satisfies⟩
  · rintro ⟨fields, stored, field, values, found, value, member, satisfies⟩
    exact ⟨field, fields, stored, value, ⟨values, found, member⟩, satisfies⟩

/-- No existence test without a field, on which `Plan` and `Matches` differ. -/
def Searchable : Query → Prop
  | .existsQ field => field ≠ []
  | .andQ l r => Searchable l ∧ Searchable r
  | .orQ l r => Searchable l ∧ Searchable r
  | .notQ q => Searchable q
  | .matchAll => True
  | .termQ _ => True
  | .rangeQ _ => True

theorem searchable_parse [Unicode] {s : GoString} (accepted : parse s = .ok q) : Searchable q := by
  refine Compositional.parse ⟨?_, fun _ => trivial, fun _ _ left right => ⟨left, right⟩,
    fun _ _ left right => ⟨left, right⟩, fun _ holds => holds⟩ accepted
  intro field value glob phrase
  unfold buildTerm
  dsimp only
  split_ifs with lone all
  · trivial
  · exact fun empty => all (.inl empty)
  all_goals trivial

theorem mem_intersect {id : GoString} : id ∈ intersect a b ↔ id ∈ a ∧ id ∈ b := by
  unfold intersect
  split_ifs <;> simp [and_comm]

theorem mem_union {id : GoString} : id ∈ union a b ↔ id ∈ a ∨ id ∈ b := by
  unfold union
  split_ifs <;> simp [or_comm]

def Answers (c : CollIndex) (corpus : Corpus) (q : Query) : Prop :=
  ∃ ids, plan q (postingsView c) = some ids ∧
    ∀ id, id ∈ ids ↔ ∃ fields, corpus[id]? = some fields ∧ q.matchesFields fields

theorem Holds.term (holds : Holds c corpus) (t : TermQ) : Answers c corpus (.termQ t) := by
  unfold Answers
  simp only [plan, Query.matchesFields, TermQ.matchesFields]
  split_ifs with bare
  · exact ⟨_, rfl, holds.mem_matchAny t.matchVal⟩
  · cases pattern : t.re with
    | some re => exact ⟨_, rfl, holds.mem_matchField t.field t.matchVal⟩
    | none =>
      refine ⟨_, rfl, fun id => (holds.postings t.field t.value id).trans ?_⟩
      have equal : t.matchVal = fun v => decide (v = t.value) := by
        funext v
        simp [TermQ.matchVal, pattern]
      simp [equal]

theorem Holds.plan (holds : Holds c corpus) (searchable : Searchable q) : Answers c corpus q := by
  induction q with
  | matchAll =>
    refine ⟨_, rfl, fun id => (holds.all id).trans ?_⟩
    simp [Query.matchesFields, mem_iff_exists]
  | termQ t => exact holds.term t
  | existsQ field =>
    refine ⟨docs c field, ?_, fun id => (holds.fieldDocs field id).trans ?_⟩
    · simp only [CincServer.Search.plan, if_neg (show field ≠ [] from searchable)]
      rfl
    · refine exists_congr fun fields => and_congr_right fun stored => ?_
      rw [(holds.filled id fields stored).mem_iff, Query.matchesFields,
        if_neg (show field ≠ [] from searchable)]
      simp [List.length_pos_iff_exists_mem]
  | rangeQ r => exact ⟨_, rfl, holds.mem_matchField r.field r.inRange⟩
  | andQ l r left right =>
    obtain ⟨lefts, planned, kept⟩ := left searchable.1
    obtain ⟨rights, planned', kept'⟩ := right searchable.2
    simp only [Answers, CincServer.Search.plan, planned, planned', Query.matchesFields]
    split_ifs with empty
    · refine ⟨lefts, rfl, fun id => ?_⟩
      have none : id ∉ lefts := by simp [Finset.card_eq_zero.mp empty]
      simp only [kept, not_exists, not_and] at none
      rw [kept]
      refine exists_congr fun fields => and_congr_right fun stored => ?_
      simp [none fields stored]
    · refine ⟨_, rfl, fun id => ?_⟩
      rw [mem_intersect, kept, kept']
      cases corpus[id]? <;> simp
  | orQ l r left right =>
    obtain ⟨lefts, planned, kept⟩ := left searchable.1
    obtain ⟨rights, planned', kept'⟩ := right searchable.2
    refine ⟨union lefts rights, by simp only [CincServer.Search.plan, planned, planned'], fun id => ?_⟩
    rw [mem_union, kept, kept']
    cases corpus[id]? <;> simp [Query.matchesFields]
  | notQ q inner =>
    obtain ⟨ids, planned, kept⟩ := inner searchable
    refine ⟨difference c.all ids, by simp only [CincServer.Search.plan, planned]; rfl, fun id => ?_⟩
    rw [difference, Finset.mem_sdiff, kept, holds.all, mem_iff_exists]
    cases corpus[id]? <;> simp [Query.matchesFields]

/-- For every query `Parse` accepts and every history of an index, planning the query against the
index gives exactly the documents a scan of the indexed collection keeps. -/
theorem plan_eq_scan [Unicode] {s : GoString} {q : Query} (accepted : parse s = .ok q)
    (merge : Bool)
    (history : List IndexOp) :
    CincServer.Search.plan q (postingsView (indexed merge history)) =
      some (scan q (contents merge history)) := by
  obtain ⟨ids, planned, kept⟩ := (holds_indexed merge history).plan (searchable_parse accepted)
  rw [planned]
  congr 1
  ext id
  rw [kept, mem_scan]

def wildcardQuery : Query :=
  .andQ (.termQ ⟨lit "name", lit "w*", false, some [.literal 119, .dotStar]⟩)
    (.notQ (.termQ ⟨lit "role", lit "db", false, none⟩))

theorem plan_eq_scan_wildcard :
    letI : Unicode := ⟨id⟩
    parse (lit "name:w* AND NOT role:db") = .ok wildcardQuery ∧
      CincServer.Search.plan wildcardQuery (postingsView (indexed false
        [.put (lit "n1") [(lit "name", .string (lit "Web"))],
          .put (lit "n2") [(lit "name", .string (lit "w2")), (lit "role", .string (lit "db"))]])) =
        some {lit "n1"} := by
  let _ : Unicode := ⟨id⟩
  have accepted : parse (lit "name:w* AND NOT role:db") = .ok wildcardQuery := by decide +kernel
  refine ⟨accepted, (plan_eq_scan accepted false _).trans ?_⟩
  decide +kernel

end CincServer.Proof.Search
