import CincServer.Lib.Journal

/-!
# Parts that go with their owner
-/

namespace CincServer.Lib

variable {κ ι σ ε α β K : Type} {ρ : ι → Type}

namespace Program

variable (step : (c : ι) → σ → ρ c × σ) (owner : σ → Bool) (part : σ → K → Bool) (adds : ι → Bool)
  {p : Program ρ ε α} {f : β → Program ρ ε α} {s : σ}

def Owes (k : K) : Program ρ ε α → Prop
  | .ret _ => False
  | .stop _ => False
  | .call c next => ∀ s, part s k → part (step c s).2 k → (next (step c s).1).Owes k

def Respects (c : ι) : Prop := adds c ∨ ∀ s k, part (step c s).2 k → part s k

def Cascades : Program ρ ε α → Prop
  | .ret _ => True
  | .stop _ => True
  | .call c next => Respects step part adds c ∧ ∀ s,
      (owner s → owner (step c s).2 = false → ∀ k, part (step c s).2 k → (next (step c s).1).Owes step part k) ∧
      (next (step c s).1).Cascades

def Retains (c : ι) : Prop := Respects step part adds c ∧ ∀ s, owner s → owner (step c s).2

variable {step owner part adds}

theorem Only.cascading {p : Program ρ ε β} (only : p.Only (Retains step owner part adds))
    (rest : ∀ b, (f b).Cascades step owner part adds) :
    (p >>= f).Cascades step owner part adds := by
  induction p with
  | ret b => exact rest b
  | stop e => trivial
  | call c next ih =>
    refine ⟨only.1.1, fun s => ⟨fun there gone => ?_, ih _ (only.2 _)⟩⟩
    rw [only.1.2 s there] at gone
    cases gone

theorem Only.cascades (only : p.Only (Retains step owner part adds)) :
    p.Cascades step owner part adds := by
  induction p with
  | ret | stop => trivial
  | call c next ih =>
    refine ⟨only.1.1, fun s => ⟨fun there gone => ?_, ih _ (only.2 _)⟩⟩
    rw [only.1.2 s there] at gone
    cases gone

theorem cascades_remove {c : ι} {f : ρ c → Program ρ ε α} (respects : Respects step part adds c)
    (owes : ∀ s, owner s → ∀ k, (f (step c s).1).Owes step part k)
    (rest : ∀ s, (f (step c s).1).Cascades step owner part adds) :
    (perform c >>= f).Cascades step owner part adds :=
  ⟨respects, fun s => ⟨fun there _ k _ => owes s there k, rest s⟩⟩

variable (step owner part)

def Clears (k : K) : Program ρ ε α → Prop
  | .ret _ => True
  | .stop _ => True
  | .call c next => ∀ s, part s k → (owner s → owner (step c s).2) ∧ (part (step c s).2 k → (next (step c s).1).Clears k)

def Drops (k : K) : Program ρ ε α → Prop
  | .ret _ => False
  | .stop _ => True
  | .call c next => ∀ s, part s k → (owner s → owner (step c s).2) ∧ (part (step c s).2 k → (next (step c s).1).Drops k)

variable {step owner part} {k : K}

theorem clears_of_ended (ended : p.ended) : p.Clears step owner part k := by
  cases p with
  | ret | stop => trivial
  | call => cases ended

theorem Drops.bind {p : Program ρ ε β} (drops : p.Drops step owner part k) (f : β → Program ρ ε α) :
    (p >>= f).Drops step owner part k := by
  induction p with
  | ret => exact drops.elim
  | stop => trivial
  | call c next ih => exact fun s there => ⟨(drops s there).1, fun still => ih _ ((drops s there).2 still)⟩

theorem Drops.clears (drops : p.Drops step owner part k) : p.Clears step owner part k := by
  induction p with
  | ret | stop => trivial
  | call c next ih => exact fun s there => ⟨(drops s there).1, fun still => ih _ ((drops s there).2 still)⟩

theorem Only.dropping {p : Program ρ ε β} (only : p.Only fun c => ∀ s, owner s → owner (step c s).2)
    (rest : ∀ b, (f b).Drops step owner part k) : (p >>= f).Drops step owner part k := by
  induction p with
  | ret b => exact rest b
  | stop => trivial
  | call c next ih => exact fun s _ => ⟨only.1 s, fun _ => ih _ (only.2 _)⟩

theorem Only.clears (only : p.Only fun c => ∀ s, owner s → owner (step c s).2) :
    p.Clears step owner part k := by
  induction p with
  | ret | stop => trivial
  | call c next ih => exact fun s _ => ⟨only.1 s, fun _ => ih _ (only.2 _)⟩

theorem drops_perform {c : ι} {f : ρ c → Program ρ ε α} (spares : ∀ s, owner s → owner (step c s).2)
    (rest : ∀ s, part s k → part (step c s).2 k → (f (step c s).1).Drops step owner part k) :
    (perform c >>= f).Drops step owner part k :=
  fun s there => ⟨spares s, rest s there⟩

end Program

namespace Journal
open Program

variable (owner : σ → Bool) (part : σ → K → Bool) (adds : κ → ι → Bool)

def owned : Allows κ ρ ε α σ := fun label c s _ => adds label c → owner s

instance (label : κ) (c : ι) (s : σ) (others : List (Entry κ ρ ε α)) :
    Decidable (owned owner adds label c s others) :=
  inferInstanceAs (Decidable (_ → _))

structure Cascading (step : (c : ι) → σ → ρ c × σ) (j : Journal κ ρ ε α σ) : Prop where
  each : ∀ entry ∈ j.entries, entry.rest.Cascades step owner part (adds entry.label)
  owed : owner j.state = false → ∀ k, part j.state k → ∃ entry ∈ j.entries, entry.rest.Owes step part k

variable {owner part adds} {step : (c : ι) → σ → ρ c × σ} {program : κ → Program ρ ε α} {j j' : Journal κ ρ ε α σ}

theorem Cascading.goes (cascading : Cascading owner part adds step j)
    (goes : Goes step (owned owner adds) j j') :
    Cascading owner part adds step j' := by
  obtain ⟨each, owed⟩ := cascading
  cases goes with
  | @call s before after calls n number label c next ok =>
    obtain ⟨⟨respects, own⟩, others⟩ := forall_mem_middle.mp each
    refine ⟨forall_mem_middle.mpr ⟨(own s).2, others⟩, fun gone k left => ?_⟩
    have self : (⟨number, label, next (step c s).1⟩ : Entry κ ρ ε α) ∈
        before ++ ⟨number, label, next (step c s).1⟩ :: after := List.mem_append_right _ (List.mem_cons_self ..)
    cases there : owner s with
    | true => exact ⟨_, self, (own s).1 there gone k left⟩
    | false =>
      have was : part s k := by
        rcases respects with adds | none
        · rw [ok adds] at there
          cases there
        · exact none s k left
      obtain ⟨entry, mem, owes⟩ := owed there k was
      rcases List.mem_append.mp mem with inFront | inBack
      · exact ⟨entry, List.mem_append_left _ inFront, owes⟩
      · rcases List.mem_cons.mp inBack with rfl | inBack
        · exact ⟨_, self, owes s was left⟩
        · exact ⟨entry, List.mem_append_right _ (List.mem_cons_of_mem _ inBack), owes⟩

theorem Reaches.owned {sound : κ → Prop}
    (reached : Reaches step program (owned owner adds) (.initial s) j)
    (cascades : ∀ label, sound label → (program label).Cascades step owner part (adds label))
    (start : ∀ k, part s k → owner s) (all : ∀ entry ∈ j.entries, sound entry.label)
    (ended : ∀ entry ∈ j.entries, entry.rest.ended) : ∀ k, part j.state k → owner j.state := by
  have cascading : (∀ entry ∈ j.entries, sound entry.label) → Cascading owner part adds step j := by
    refine reached.invariant (fun j =>
      (∀ entry ∈ j.entries, sound entry.label) → Cascading owner part adds step j)
      (fun j label before all => ?_) (fun j j' before goes all => ?_) fun _ =>
        ⟨nofun, fun gone k left => ?_⟩
    · obtain ⟨own, others⟩ := List.forall_mem_cons.mp all
      obtain ⟨each, owed⟩ := before others
      refine ⟨List.forall_mem_cons.mpr ⟨cascades label own, each⟩, fun gone k left => ?_⟩
      obtain ⟨entry, mem, owes⟩ := owed gone k left
      exact ⟨entry, List.mem_cons_of_mem _ mem, owes⟩
    · refine (before ?_).goes goes
      cases goes with
      | call => exact forall_mem_middle.mpr (forall_mem_middle.mp all)
    · have there := start k left
      rw [show owner s = false from gone] at there
      cases there
  intro k left
  by_contra gone
  obtain ⟨entry, mem, owes⟩ := (cascading all).owed (by simpa using gone) k left
  have finished := ended entry mem
  obtain ⟨number, label, rest⟩ := entry
  cases rest with
  | ret | stop => exact owes
  | call => cases finished

variable (owner part adds) (removes : κ → Bool)

def addedAlone : Allows κ ρ ε α σ := fun label c s others =>
  adds label c → owner s ∧ ∀ other ∈ others, removes other.label → other.rest.ended

instance (label : κ) (c : ι) (s : σ) (others : List (Entry κ ρ ε α)) :
    Decidable (addedAlone owner adds removes label c s others) := inferInstanceAs (Decidable (_ → _))

def Minds (step : (c : ι) → σ → ρ c × σ) (label : κ) (p : Program ρ ε α) : Prop :=
  if removes label then p.Only fun c => ∀ s k, part (step c s).2 k → part s k
  else p.Only (Retains step owner part (adds label))

structure Clearing (step : (c : ι) → σ → ρ c × σ) (j : Journal κ ρ ε α σ) : Prop where
  owned : ∀ k, part j.state k → owner j.state
  minds : ∀ entry ∈ j.entries, Minds owner part adds removes step entry.label entry.rest
  clears : ∀ entry ∈ j.entries, ∀ k, part j.state k → entry.rest.Clears step owner part k

variable {owner part adds removes}

theorem Minds.call {label : κ} {c : ι} {next : ρ c → Program ρ ε α}
    (minds : Minds owner part adds removes step label (.call c next)) (answer : ρ c) :
    Minds owner part adds removes step label (next answer) := by
  unfold Minds at minds ⊢
  split
  · next removes =>
    rw [if_pos removes] at minds
    exact minds.2 answer
  · next removes =>
    rw [if_neg removes] at minds
    exact minds.2 answer

theorem Clearing.goes (clearing : Clearing owner part adds removes step j)
    (goes : Goes step (addedAlone owner adds removes) j j') :
    Clearing owner part adds removes step j' := by
  obtain ⟨owned, minds, clears⟩ := clearing
  cases goes with
  | @call s before after calls n number label c next ok =>
    obtain ⟨own, others⟩ := forall_mem_middle.mp minds
    obtain ⟨ownClears, othersClear⟩ := forall_mem_middle.mp clears
    have step_part (k : K) (left : part (step c s).2 k) : owner (step c s).2 ∧
        (next (step c s).1).Clears step owner part k ∧
        ∀ entry ∈ before ++ after, entry.rest.Clears step owner part k := by
      by_cases was : part s k
      · obtain ⟨spared, rest⟩ := ownClears k was s was
        exact ⟨spared (owned k was), rest left, fun entry mem => othersClear entry mem k was⟩
      · -- only a program that leaves the owner there adds a part, and none that removes it is under way
        have keeps : removes label = false := by
          cases isRemover : removes label with
          | false => rfl
          | true =>
            rw [Minds, if_pos isRemover] at own
            exact absurd (own.1 s k left) was
        rw [Minds, if_neg (by simp [keeps])] at own
        have added : adds label c := own.1.1.resolve_right fun none => was (none s k left)
        obtain ⟨there, idle⟩ := ok added
        refine ⟨own.1.2 s there, ((own.2 _).mono fun _ retains => retains.2).clears,
          fun entry mem => ?_⟩
        have minds := others entry mem
        rw [Minds] at minds
        split at minds
        · next isRemover => exact clears_of_ended (idle entry mem isRemover)
        · exact (minds.mono fun _ retains => retains.2).clears
    exact ⟨fun k left => (step_part k left).1, forall_mem_middle.mpr ⟨own.call _, others⟩,
      forall_mem_middle.mpr ⟨fun k left => (step_part k left).2.1, fun entry mem k left => (step_part k left).2.2 entry mem⟩⟩

theorem Reaches.cleared (reached : Reaches step program (addedAlone owner adds removes) (.initial s) j)
    (minds : ∀ label, Minds owner part adds removes step label (program label))
    (clears : ∀ label, removes label → ∀ k, (program label).Clears step owner part k)
    (start : ∀ k, part s k → owner s) : ∀ k, part j.state k → owner j.state := by
  have clearing : Clearing owner part adds removes step j := by
    refine reached.invariant (Clearing owner part adds removes step) (fun j label before => ?_)
      (fun j j' before goes => before.goes goes) ⟨start, nofun, nofun⟩
    refine ⟨before.owned, List.forall_mem_cons.mpr ⟨minds label, before.minds⟩,
      List.forall_mem_cons.mpr ⟨fun k _ => ?_, before.clears⟩⟩
    by_cases isRemover : removes label
    · exact clears label isRemover k
    · have own := minds label
      rw [Minds, if_neg isRemover] at own
      exact (own.mono fun _ retains => retains.2).clears
  exact clearing.owned

end Journal

/-! ## Parts added on a check, owners collected by mark and sweep -/

namespace Program

variable (step : (c : ι) → σ → ρ c × σ) (owner : σ → Bool) (part : σ → K → Bool)
  {p : Program ρ ε α} {f : β → Program ρ ε α} {label : κ} {s : σ}

def AddsNone (c : ι) : Prop := ∀ s k, part (step c s).2 k → part s k

def Careful (sure : Bool) : Program ρ ε α → Prop
  | .ret _ => True
  | .stop _ => True
  | .call c next => ∀ s, (sure → owner s) → (owner s = false → ∀ k, part (step c s).2 k → part s k) ∧
      (next (step c s).1).Careful (owner s && owner (step c s).2)

def Adopts : Program ρ ε α → Prop
  | .ret _ => True
  | .stop _ => True
  | .call c next => ∀ s, (∀ k, part s k = false → part (step c s).2 k →
      (owner s → owner (step c s).2) ∧ (next (step c s).1).Clears step owner part k) ∧ (next (step c s).1).Adopts

def Finds (k : K) (good : α → Prop) : Program ρ ε α → Prop
  | .ret a => good a
  | .stop _ => True
  | .call c next => ∀ s, part s k →
      (owner s → owner (step c s).2) ∧ (part (step c s).2 k → (next (step c s).1).Finds k good)

variable {step owner part} {k : K} {sure : Bool}

theorem Careful.weaken (careful : p.Careful step owner part sure) {surer : Bool}
    (more : sure → surer) : p.Careful step owner part surer := by
  cases p with
  | ret | stop => trivial
  | call c next => exact fun s there => careful s fun isSure => there (more isSure)

theorem careful_of_ended (ended : p.ended) : p.Careful step owner part sure := by
  cases p with
  | ret | stop => trivial
  | call => cases ended

theorem Only.careful (only : p.Only (AddsNone step part)) : p.Careful step owner part sure := by
  induction p generalizing sure with
  | ret | stop => trivial
  | call c next ih => exact fun s _ => ⟨fun _ => only.1 s, ih _ (only.2 _)⟩

theorem Only.careful_bind {p : Program ρ ε β} (only : p.Only fun c => ∀ s, (step c s).2 = s)
    (rest : ∀ b, (f b).Careful step owner part sure) : (p >>= f).Careful step owner part sure := by
  induction p with
  | ret b => exact rest b
  | stop => trivial
  | call c next ih =>
    refine fun s there => ⟨fun _ k => by rw [only.1 s]; exact id, (ih _ (only.2 _)).weaken fun isSure => ?_⟩
    rw [only.1 s, there isSure]
    rfl

theorem careful_ask {c : ι} {f : ρ c → Program ρ ε α} (same : ∀ s, (step c s).2 = s)
    (missing : ∀ s, owner s = false → (f (step c s).1).Careful step owner part false)
    (there : ∀ answer, (f answer).Careful step owner part true) :
    (perform c >>= f).Careful step owner part sure := by
  intro s _
  refine ⟨fun _ k => by rw [same s]; exact id, ?_⟩
  rw [same s, Bool.and_self]
  cases found : owner s with
  | false => exact missing s found
  | true => exact there _

theorem careful_add {c : ι} {f : ρ c → Program ρ ε α}
    (rest : ∀ answer, (f answer).Only (AddsNone step part)) :
    (perform c >>= f).Careful step owner part true := by
  refine fun s there => ⟨fun missing => ?_, (rest _).careful⟩
  rw [there rfl] at missing
  cases missing

theorem Finds.bind {p : Program ρ ε β} {good : β → Prop} {good' : α → Prop}
    (finds : p.Finds step owner part k good)
    (rest : ∀ b, good b → (f b).Finds step owner part k good') :
    (p >>= f).Finds step owner part k good' := by
  induction p with
  | ret b => exact rest b finds
  | stop => trivial
  | call c next ih => exact fun s here => ⟨(finds s here).1, fun still => ih _ ((finds s here).2 still)⟩

theorem Only.finds (only : p.Only fun c => ∀ s, owner s → owner (step c s).2) :
    p.Finds step owner part k fun _ => True := by
  induction p with
  | ret | stop => trivial
  | call c next ih => exact fun s _ => ⟨only.1 s, fun _ => ih _ (only.2 _)⟩

theorem finds_perform {c : ι} {good : ρ c → Prop} (spares : ∀ s, owner s → owner (step c s).2)
    (finds : ∀ s, part s k → good (step c s).1) :
    (perform c : Program ρ ε (ρ c)).Finds step owner part k good :=
  fun s here => ⟨spares s, fun _ => finds s here⟩

theorem Finds.clears {good : α → Prop}
    (finds : p.Finds step owner part k good) : p.Clears step owner part k := by
  induction p with
  | ret | stop => trivial
  | call c next ih => exact fun s here => ⟨(finds s here).1, fun still => ih _ ((finds s here).2 still)⟩

theorem Only.adopting {p : Program ρ ε β} (only : p.Only (AddsNone step part))
    (rest : ∀ b, (f b).Adopts step owner part) : (p >>= f).Adopts step owner part := by
  induction p with
  | ret b => exact rest b
  | stop => trivial
  | call c next ih =>
    refine fun s => ⟨fun k absent now => ?_, ih _ (only.2 _)⟩
    rw [only.1 s k now] at absent
    cases absent

theorem Only.adopts (only : p.Only (AddsNone step part)) : p.Adopts step owner part := by
  induction p with
  | ret | stop => trivial
  | call c next ih =>
    refine fun s => ⟨fun k absent now => ?_, ih _ (only.2 _)⟩
    rw [only.1 s k now] at absent
    cases absent

theorem adopts_add {c : ι} {f : ρ c → Program ρ ε α} (spares : ∀ s, owner s → owner (step c s).2)
    (clears : ∀ answer k, (f answer).Clears step owner part k)
    (rest : ∀ answer, (f answer).Only (AddsNone step part)) :
    (perform c >>= f).Adopts step owner part :=
  fun s => ⟨fun k _ _ => ⟨spares s, clears _ k⟩, (rest _).adopts⟩

end Program

namespace Journal
open Program

variable (stores collects : κ → Bool)

def keptApart : Allows κ ρ ε α σ := fun label _ _ others => ∀ other ∈ others,
  stores label ∧ collects other.label ∨ collects label ∧ stores other.label → other.rest.ended

instance (label : κ) (c : ι) (s : σ) (others : List (Entry κ ρ ε α)) :
    Decidable (keptApart stores collects label c s others) := inferInstanceAs (Decidable (∀ other ∈ others, _ → _))

variable (step : (c : ι) → σ → ρ c × σ) (owner : σ → Bool) (part : σ → K → Bool)

structure Collects (label : κ) (s : σ) (p : Program ρ ε α) : Prop where
  careful : p.Careful step owner part (owner s)
  adopts : p.Adopts step owner part
  clears : ∀ k, part s k → p.Clears step owner part k
  adds : stores label = false → p.Only (AddsNone step part)
  spares : collects label = false → p.Only fun c => ∀ s, owner s → owner (step c s).2

structure Backs (j : Journal κ ρ ε α σ) : Prop where
  backed : ∀ k, part j.state k → owner j.state
  each : ∀ entry ∈ j.entries, Collects stores collects step owner part entry.label j.state entry.rest

variable {stores collects step owner part} {program : κ → Program ρ ε α} {j j' : Journal κ ρ ε α σ}

theorem Collects.backed {c : ι} {next : ρ c → Program ρ ε α} {k : K}
    (own : Collects stores collects step owner part label s (.call c next))
    (before : part s k → owner s)
    (now : part (step c s).2 k) : owner (step c s).2 := by
  cases was : part s k with
  | true => exact (own.clears k was s was).1 (before was)
  | false =>
    cases there : owner s with
    | true => exact (((own.adopts s).1 k was now).1 there)
    | false =>
      have none := (own.careful s (fun isThere => isThere)).1 there k now
      rw [was] at none
      cases none

theorem Collects.call {label : κ} {s : σ} {c : ι} {next : ρ c → Program ρ ε α}
    (own : Collects stores collects step owner part label s (.call c next)) :
    Collects stores collects step owner part label (step c s).2 (next (step c s).1) := by
  refine ⟨((own.careful s fun isThere => isThere).2).weaken fun both =>
    (Bool.and_eq_true_iff.mp both).2,
    (own.adopts s).2, fun k now => ?_, fun none => (own.adds none).2 _, fun none => (own.spares none).2 _⟩
  cases was : part s k with
  | true => exact (own.clears k was s was).2 now
  | false => exact ((own.adopts s).1 k was now).2

theorem Collects.beside {c : ι} {next : ρ c → Program ρ ε α} {other : Entry κ ρ ε α}
    (own : Collects stores collects step owner part label s (.call c next))
    (left : Collects stores collects step owner part other.label s other.rest)
    (apart : stores label ∧ collects other.label ∨ collects label ∧ stores other.label → other.rest.ended) :
    Collects stores collects step owner part other.label (step c s).2 other.rest := by
  refine ⟨?_, left.adopts, fun k now => ?_, left.adds, left.spares⟩
  · -- only a program that collects takes the owner away, and then the other one adds nothing
    cases removes : collects label with
    | false => exact left.careful.weaken fun there => (own.spares removes).1 s there
    | true =>
      cases added : stores other.label with
      | false => exact (left.adds added).careful
      | true => exact careful_of_ended (apart (.inr ⟨removes, added⟩))
  · cases was : part s k with
    | true => exact left.clears k was
    | false =>
      cases removes : collects other.label with
      | false => exact (left.spares removes).clears
      | true =>
        cases added : stores label with
        | true => exact clears_of_ended (apart (.inl ⟨added, removes⟩))
        | false =>
          have none := (own.adds added).1 s k now
          rw [was] at none
          cases none

theorem Backs.goes (backs : Backs stores collects step owner part j)
    (goes : Goes step (keptApart stores collects) j j') :
    Backs stores collects step owner part j' := by
  obtain ⟨backed, each⟩ := backs
  cases goes with
  | call apart =>
    obtain ⟨own, others⟩ := forall_mem_middle.mp each
    refine ⟨fun k now => own.backed (backed k) now,
      forall_mem_middle.mpr ⟨own.call, fun other mem => ?_⟩⟩
    exact own.beside (others other mem) (apart other mem)

theorem Reaches.backed (reached : Reaches step program (keptApart stores collects) (.initial s) j)
    (each : ∀ label s, Collects stores collects step owner part label s (program label))
    (start : ∀ k, part s k → owner s) : ∀ k, part j.state k → owner j.state := by
  have backs : Backs stores collects step owner part j :=
    reached.invariant (Backs stores collects step owner part)
    (fun j label backs => ⟨backs.backed, List.forall_mem_cons.mpr ⟨each label j.state, backs.each⟩⟩)
    (fun _ _ backs goes => backs.goes goes) ⟨start, nofun⟩
  exact backs.backed

end Journal

end CincServer.Lib
