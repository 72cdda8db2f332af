import CincServer.Lib.Program
import Mathlib.Data.List.Nodup

/-!
# Programs in flight together, and what they called
-/

namespace CincServer.Lib

variable {κ ι σ ε α ν : Type} {ρ : ι → Type} {β : Type} {label : κ} {s : σ} {calls : List (Nat × ι)}

def Program.ended : Program ρ ε α → Bool
  | .call .. => false
  | _ => true

def Program.returned : Program ρ ε α → Bool
  | .ret _ => true
  | _ => false

theorem Program.only_of_ended {allowed : ι → Prop} {p : Program ρ ε α}
    (ended : p.ended) : p.Only allowed := by
  cases p with
  | ret | stop => trivial
  | call => cases ended

theorem exists_of_decided {o : Option β} {P : β → Prop} [DecidablePred P]
    (closed : o.map (fun b => decide (P b)) = some true) : ∃ b, o = some b ∧ P b := by
  obtain ⟨b, made, checked⟩ := Option.map_eq_some_iff.mp closed
  exact ⟨b, made, of_decide_eq_true checked⟩

theorem forall_mem_middle {P : β → Prop} {before after : List β} {b : β} :
    (∀ x ∈ before ++ b :: after, P x) ↔ P b ∧ ∀ x ∈ before ++ after, P x := by
  rw [List.forall_mem_append, List.forall_mem_cons, List.forall_mem_append]
  exact and_left_comm

structure Entry (κ : Type) {ι : Type} (ρ : ι → Type) (ε α : Type) where
  number : Nat
  label : κ
  rest : Program ρ ε α

structure Journal (κ : Type) {ι : Type} (ρ : ι → Type) (ε α σ : Type) where
  state : σ
  entries : List (Entry κ ρ ε α)
  calls : List (Nat × ι)
  started : Nat

abbrev Allows (κ : Type) {ι : Type} (ρ : ι → Type) (ε α σ : Type) :=
  κ → ι → σ → List (Entry κ ρ ε α) → Prop

namespace Journal

def initial (s : σ) : Journal κ ρ ε α σ := ⟨s, [], [], 0⟩

def anyOrder : Allows κ ρ ε α σ := fun _ _ _ _ => True

instance (label : κ) (c : ι) (s : σ) (others : List (Entry κ ρ ε α)) :
    Decidable (anyOrder label c s others) :=
  inferInstanceAs (Decidable True)

variable (step : (c : ι) → σ → ρ c × σ) (program : κ → Program ρ ε α) (allows : Allows κ ρ ε α σ)

inductive Starts (label : κ) : Journal κ ρ ε α σ → Journal κ ρ ε α σ → Prop
  | first {s : σ} {entries : List (Entry κ ρ ε α)} {calls : List (Nat × ι)} {n : Nat} {c : ι}
      {next : ρ c → Program ρ ε α} (is : program label = .call c next) (ok : allows label c s entries) :
      Starts label ⟨s, entries, calls, n⟩
        ⟨(step c s).2, ⟨n, label, next (step c s).1⟩ :: entries, calls ++ [(n, c)], n + 1⟩

inductive Goes : Journal κ ρ ε α σ → Journal κ ρ ε α σ → Prop
  | call {s : σ} {before after : List (Entry κ ρ ε α)} {calls : List (Nat × ι)} {n number : Nat} {label : κ} {c : ι}
      {next : ρ c → Program ρ ε α} (ok : allows label c s (before ++ after)) :
      Goes ⟨s, before ++ ⟨number, label, .call c next⟩ :: after, calls, n⟩
        ⟨(step c s).2, before ++ ⟨number, label, next (step c s).1⟩ :: after, calls ++ [(number, c)], n⟩

def Step (j j' : Journal κ ρ ε α σ) : Prop :=
  (∃ label, Starts step program allows label j j') ∨ Goes step allows j j'

def Reaches : Journal κ ρ ε α σ → Journal κ ρ ε α σ → Prop :=
  Relation.ReflTransGen (Step step program allows)

def enter (j : Journal κ ρ ε α σ) (label : κ) (p : Program ρ ε α) : Journal κ ρ ε α σ :=
  ⟨j.state, ⟨j.started, label, p⟩ :: j.entries, j.calls, j.started + 1⟩

variable {step program allows}

theorem Reaches.mono {allows' : Allows κ ρ ε α σ} {j j' : Journal κ ρ ε α σ}
    (reached : Reaches step program allows j j')
    (weaker : ∀ {label c s others}, allows label c s others → allows' label c s others) :
    Reaches step program allows' j j' := by
  induction reached with
  | refl => exact .refl
  | tail _ moved ih =>
    refine .tail ih ?_
    rcases moved with ⟨label, starts⟩ | goes
    · cases starts with
      | first is ok => exact .inl ⟨label, .first is (weaker ok)⟩
    · cases goes with
      | call ok => exact .inr (.call (weaker ok))

inductive Move (κ : Type)
  | start (label : κ)
  | go (index : Nat)

variable (step program allows) [∀ label c s others, Decidable (allows label c s others)]

def move (j : Journal κ ρ ε α σ) : Move κ → Option (Journal κ ρ ε α σ)
  | .start label =>
    match program label with
    | .call c next =>
      if allows label c j.state j.entries then
        some ⟨(step c j.state).2, ⟨j.started, label, next (step c j.state).1⟩ :: j.entries,
          j.calls ++ [(j.started, c)], j.started + 1⟩
      else none
    | _ => none
  | .go index =>
    match j.entries.drop index with
    | ⟨number, label, .call c next⟩ :: after =>
      if allows label c j.state (j.entries.take index ++ after) then
        some ⟨(step c j.state).2, j.entries.take index ++ ⟨number, label, next (step c j.state).1⟩ :: after,
          j.calls ++ [(number, c)], j.started⟩
      else none
    | _ => none

def moves (j : Journal κ ρ ε α σ) : List (Move κ) → Option (Journal κ ρ ε α σ)
  | [] => some j
  | m :: rest => (move step program allows j m).bind fun j' => moves j' rest

variable {step program allows}

theorem starts_of_move {j j' : Journal κ ρ ε α σ}
    (moved : move step program allows j (.start label) = some j') :
    Starts step program allows label j j' := by
  obtain ⟨s, entries, calls, n⟩ := j
  simp only [move] at moved
  split at moved
  · next c next is =>
    obtain ⟨ok, same⟩ := Option.ite_none_right_eq_some.mp moved
    cases same
    exact .first is ok
  · cases moved

theorem step_of_move {j j' : Journal κ ρ ε α σ} {m : Move κ}
    (moved : move step program allows j m = some j') :
    Step step program allows j j' := by
  cases m with
  | start label => exact .inl ⟨label, starts_of_move moved⟩
  | go index =>
    obtain ⟨s, entries, calls, n⟩ := j
    simp only [move] at moved
    split at moved
    · next number label c next after found =>
      have whole := List.take_append_drop index entries
      rw [found] at whole
      obtain ⟨ok, same⟩ := Option.ite_none_right_eq_some.mp moved
      cases same
      generalize entries.take index = before at whole ok ⊢
      subst whole
      exact .inr (.call ok)
    · cases moved

theorem reaches_of_moves {j j' : Journal κ ρ ε α σ} {ms : List (Move κ)}
    (moved : moves step program allows j ms = some j') :
    Reaches step program allows j j' := by
  induction ms generalizing j with
  | nil =>
    cases moved
    exact .refl
  | cons m rest ih =>
    obtain ⟨middle, first, others⟩ := Option.bind_eq_some_iff.mp moved
    exact .head (step_of_move first) (ih others)

theorem exists_of_moves {j : Journal κ ρ ε α σ} {P : Journal κ ρ ε α σ → Prop} [DecidablePred P]
    (ms : List (Move κ))
    (checked : (moves step program allows j ms).any (fun j => decide (P j)) = true) :
    ∃ j', Reaches step program allows j j' ∧ P j' := by
  obtain ⟨j', made, holds⟩ := (Option.any_eq_true ..).mp checked
  exact ⟨j', reaches_of_moves made, of_decide_eq_true holds⟩

end Journal

def replay (step : (c : ι) → σ → ρ c × σ) (calls : List ι) (s : σ) : σ :=
  calls.foldl (fun s c => (step c s).2) s

theorem replay_concat (step : (c : ι) → σ → ρ c × σ) (calls : List ι) (c : ι) (s : σ) :
    replay step (calls ++ [c]) s = (step c (replay step calls s)).2 := by
  rw [replay, List.foldl_append]
  rfl

variable {entry : Entry κ ρ ε α}

namespace Journal

variable {step : (c : ι) → σ → ρ c × σ} {program : κ → Program ρ ε α} {allows : Allows κ ρ ε α σ}
  {j j' : Journal κ ρ ε α σ}

theorem Starts.goes (starts : Starts step program allows label j j') :
    Goes step allows (j.enter label (program label)) j' := by
  cases starts with
  | @first s entries calls n c next is ok =>
    rw [is]
    have goes : Goes step allows ⟨s, [] ++ ⟨n, label, .call c next⟩ :: entries, calls, n + 1⟩ _ :=
      .call ok
    exact goes

theorem Reaches.invariant (inv : Journal κ ρ ε α σ → Prop)
    (reached : Reaches step program allows j j')
    (enters : ∀ j label, inv j → inv (j.enter label (program label)))
    (goes : ∀ j j', inv j → Goes step allows j j' → inv j') (start : inv j) : inv j' := by
  induction reached with
  | refl => exact start
  | tail _ moved ih =>
    rcases moved with ⟨label, starts⟩ | moved
    · exact goes _ _ (enters _ label ih) starts.goes
    · exact goes _ _ ih moved

theorem Reaches.keeps {P : σ → Prop} (reached : Reaches step program allows (.initial s) j)
    (only : ∀ label, (program label).Only fun c => ∀ s, P s → P (step c s).2)
    (start : P s) : P j.state := by
  have kept : P j.state ∧ ∀ entry ∈ j.entries, entry.rest.Only fun c =>
    ∀ s, P s → P (step c s).2 := by
    refine reached.invariant (fun j => P j.state ∧ ∀ entry ∈ j.entries,
      entry.rest.Only fun c => ∀ s, P s → P (step c s).2)
      (fun j label kept => ⟨kept.1, List.forall_mem_cons.mpr ⟨only label, kept.2⟩⟩) (fun j j' kept goes => ?_) ⟨start, nofun⟩
    cases goes with
    | call ok =>
      obtain ⟨own, others⟩ := forall_mem_middle.mp kept.2
      exact ⟨own.1 _ kept.1, forall_mem_middle.mpr ⟨own.2 _, others⟩⟩
  exact kept.1

theorem Reaches.replayed (reached : Reaches step program allows (.initial s) j) :
    j.state = replay step (j.calls.map Prod.snd) s := by
  refine reached.invariant (fun j => j.state = replay step (j.calls.map Prod.snd) s)
    (fun _ _ same => same)
    (fun j j' same goes => ?_) rfl
  cases goes with
  | call ok => rw [List.map_append, List.map_singleton, replay_concat, ← same]

structure Numbered (j : Journal κ ρ ε α σ) : Prop where
  distinct : (j.entries.map Entry.number).Nodup
  entry_lt : ∀ entry ∈ j.entries, entry.number < j.started
  call_lt : ∀ call ∈ j.calls, call.1 < j.started

theorem Numbered.enter (numbered : Numbered j) (label : κ) (p : Program ρ ε α) :
    Numbered (j.enter label p) := by
  obtain ⟨distinct, entry_lt, call_lt⟩ := numbered
  have fresh : j.started ∉ j.entries.map Entry.number := fun mem => by
    obtain ⟨entry, mem, same⟩ := List.mem_map.mp mem
    exact Nat.lt_irrefl _ (same ▸ entry_lt entry mem)
  refine ⟨List.nodup_cons.mpr ⟨fresh, distinct⟩, ?_,
    fun call mem => Nat.lt_succ_of_lt (call_lt call mem)⟩
  exact List.forall_mem_cons.mpr ⟨Nat.lt_succ_self _,
    fun entry mem => Nat.lt_succ_of_lt (entry_lt entry mem)⟩

theorem Numbered.goes (numbered : Numbered j) (goes : Goes step allows j j') : Numbered j' := by
  obtain ⟨distinct, entry_lt, call_lt⟩ := numbered
  cases goes with
  | call ok =>
    obtain ⟨own, others⟩ := forall_mem_middle.mp entry_lt
    refine ⟨by simpa using distinct, forall_mem_middle.mpr ⟨own, others⟩, ?_⟩
    exact List.forall_mem_append.mpr ⟨call_lt, List.forall_mem_singleton.mpr own⟩

theorem numbered_initial (s : σ) : Numbered (initial s : Journal κ ρ ε α σ) :=
  ⟨List.nodup_nil, nofun, nofun⟩

theorem Numbered.ne_of_middle {before after : List (Entry κ ρ ε α)} {n : Nat}
    (numbered : Numbered ⟨s, before ++ entry :: after, calls, n⟩) :
    ∀ other ∈ before ++ after, other.number ≠ entry.number := by
  have distinct := numbered.distinct
  rw [List.map_append, List.map_cons, List.nodup_middle, List.nodup_cons,
    ← List.map_append] at distinct
  exact fun other mem same => distinct.1 (same ▸ List.mem_map_of_mem mem)

theorem Numbered.eq_of_number (numbered : Numbered j) {other : Entry κ ρ ε α}
    (mem : entry ∈ j.entries)
    (mem' : other ∈ j.entries) (same : entry.number = other.number) : entry = other :=
  List.inj_on_of_nodup_map numbered.distinct mem mem' same

def since (j : Journal κ ρ ε α σ) (length number : Nat) : List ι :=
  ((j.calls.drop length).filter fun call => number ≤ call.1).map Prod.snd

structure Owned (step : (c : ι) → σ → ρ c × σ) (view : σ → ν) (ordinary : ι → Prop)
    (length number : Nat) (base : σ)
    (j : Journal κ ρ ε α σ) : Prop where
  enough : length ≤ j.calls.length ∧ number ≤ j.started
  earlier : ∀ entry ∈ j.entries, entry.number < number →
    entry.rest.Only fun c => ordinary c → ∀ s, view (step c s).2 = view s
  view : (∀ call ∈ j.calls.drop length, ordinary call.2) → view j.state = view (replay step (j.since length number) base)

variable {view : σ → ν} {ordinary : ι → Prop} {length number : Nat} {base : σ}

theorem view_call {maker : Nat} {c : ι}
    (respects : ∀ c, ordinary c → ∀ s t, view s = view t → view (step c s).2 = view (step c t).2)
    (enough : length ≤ calls.length)
    (before : (∀ call ∈ calls.drop length, ordinary call.2) →
      view s = view (replay step (((calls.drop length).filter fun call => number ≤ call.1).map Prod.snd) base))
    (earlier : maker < number → ordinary c → view (step c s).2 = view s)
    (all : ∀ call ∈ (calls ++ [(maker, c)]).drop length, ordinary call.2) :
    view (step c s).2 = view (replay step
      ((((calls ++ [(maker, c)]).drop length).filter fun call => number ≤ call.1).map Prod.snd) base) := by
  rw [List.drop_append_of_le_length enough] at all ⊢
  have holds := before fun call mem => all call (List.mem_append_left _ mem)
  have ok : ordinary c := all (maker, c) (List.mem_append_right _ (List.mem_singleton_self _))
  by_cases later : number ≤ maker
  · rw [List.filter_append, List.filter_cons_of_pos (by simpa using later), List.filter_nil,
      List.map_append, replay,
      List.foldl_append]
    exact respects c ok _ _ holds
  · rw [List.filter_append, List.filter_cons_of_neg (by simpa using later), List.filter_nil,
      List.append_nil, earlier (Nat.lt_of_not_le later) ok]
    exact holds

theorem Owned.enter (owned : Owned step view ordinary length number base j) (label : κ)
    (p : Program ρ ε α) :
    Owned step view ordinary length number base (j.enter label p) where
  enough := ⟨owned.enough.1, Nat.le_succ_of_le owned.enough.2⟩
  earlier := List.forall_mem_cons.mpr ⟨fun before => absurd owned.enough.2 (Nat.not_le_of_lt before), owned.earlier⟩
  view := owned.view

theorem Owned.goes (owned : Owned step view ordinary length number base j)
    (respects : ∀ c, ordinary c → ∀ s t, view s = view t → view (step c s).2 = view (step c t).2)
    (goes : Goes step allows j j') : Owned step view ordinary length number base j' := by
  obtain ⟨⟨long, many⟩, earlier, same⟩ := owned
  cases goes with
  | call ok =>
    obtain ⟨own, others⟩ := forall_mem_middle.mp earlier
    refine ⟨⟨Nat.le_trans long (List.sublist_append_left ..).length_le, many⟩, ?_,
      view_call respects long same fun before ordinary => (own before).1 ordinary _⟩
    exact forall_mem_middle.mpr ⟨fun before => (own before).2 _, others⟩

theorem Owned.reaches (owned : Owned step view ordinary length number base j)
    (respects : ∀ c, ordinary c → ∀ s t, view s = view t → view (step c s).2 = view (step c t).2)
    (reached : Reaches step program allows j j') : Owned step view ordinary length number base j' :=
  reached.invariant (Owned step view ordinary length number base) (fun _ _ owned => owned.enter _ _)
    (fun _ _ owned goes => owned.goes respects goes) owned

end Journal

/-! ## Programs that take a thing of which there is one -/

section Tokens

variable {κ ι σ ε α β : Type} {ρ : ι → Type} {p : Program ρ ε α} {entry : Entry κ ρ ε α}

structure Token (ι σ : Type) where
  present : σ → Bool
  takes : ι → Bool
  acts : ι → Bool

namespace Program

variable (step : (c : ι) → σ → ρ c × σ) (token : Token ι σ) (earns checks : Bool)

def Passes (c : ι) : Prop :=
  token.takes c = false ∧ ∀ s, token.present (step c s).2 → token.present s

def Spent (p : Program ρ ε α) : Prop := p.Only fun c => Passes step token c ∧ (token.acts c → earns)

def Waiting : Program ρ ε α → Prop
  | .ret _ => True
  | .stop _ => True
  | .call c next => token.acts c = false ∧
      if token.takes c then ∀ s, token.present (step c s).2 = false ∧
        (token.present s → (next (step c s).1).Spent step token earns) ∧
        (token.present s = false → checks → ∃ e, next (step c s).1 = .stop e)
      else Passes step token c ∧ ∀ answer, (next answer).Waiting

variable {step token earns checks}

theorem Only.waiting {p : Program ρ ε β} {f : β → Program ρ ε α}
    (only : p.Only fun c => token.acts c = false ∧ Passes step token c)
    (rest : ∀ b, (f b).Waiting step token earns checks) :
    (p >>= f).Waiting step token earns checks := by
  induction p with
  | ret b => exact rest b
  | stop e => trivial
  | call c next ih =>
    refine ⟨only.1.1, ?_⟩
    rw [if_neg (by simp [only.1.2.1])]
    exact ⟨only.1.2, fun answer => ih answer (only.2 answer)⟩

theorem Only.waits (only : p.Only fun c => token.acts c = false ∧ Passes step token c) :
    p.Waiting step token earns checks := by
  induction p with
  | ret | stop => trivial
  | call c next ih =>
    refine ⟨only.1.1, ?_⟩
    rw [if_neg (by simp [only.1.2.1])]
    exact ⟨only.1.2, fun answer => ih answer (only.2 answer)⟩

theorem waiting_ite {condition : Prop} [Decidable condition] {q : Program ρ ε α}
    (yes : condition → p.Waiting step token earns checks)
    (no : ¬ condition → q.Waiting step token earns checks) :
    (if condition then p else q).Waiting step token earns checks := by
  split
  · next holds => exact yes holds
  · next fails => exact no fails

theorem waiting_take {c : ι} {f : ρ c → Program ρ ε α} (takes : token.takes c)
    (quiet : token.acts c = false)
    (gone : ∀ s, token.present (step c s).2 = false)
    (spent : ∀ s, token.present s → (f (step c s).1).Spent step token earns)
    (missed : ∀ s, token.present s = false → checks → ∃ e, f (step c s).1 = .stop e) :
    (perform c >>= f).Waiting step token earns checks := by
  refine ⟨quiet, ?_⟩
  rw [if_pos takes]
  exact fun s => ⟨gone s, spent s, missed s⟩

end Program

namespace Token
open Program

variable (token : Token ι σ)

def whileThere (checks : κ → Bool) : Allows κ ρ ε α σ := fun label c s _ =>
  token.takes c → token.present s ∨ checks label

instance (checks : κ → Bool) (label : κ) (c : ι) (s : σ) (others : List (Entry κ ρ ε α)) :
    Decidable (token.whileThere checks label c s others) := inferInstanceAs (Decidable (_ → _))

structure Claimed (step : (c : ι) → σ → ρ c × σ) (earns checks : κ → Bool) (winner : Option (Nat × κ))
    (j : Journal κ ρ ε α σ) : Prop where
  free : token.present j.state → winner = none
  known : ∀ n label, winner = some (n, label) → n < j.started
  each : ∀ entry ∈ j.entries,
    (winner = some (entry.number, entry.label) ∧ entry.rest.Spent step token (earns entry.label)) ∨
      ((∀ label, winner ≠ some (entry.number, label)) ∧
        entry.rest.Waiting step token (earns entry.label) (checks entry.label))
  acted : ∀ call ∈ j.calls, token.acts call.2 → ∃ n label, winner = some (n, label) ∧ earns label
  taken : ∀ call ∈ j.calls, token.takes call.2 → (∃ label, winner = some (call.1, label)) ∨
    ∀ entry ∈ j.entries, entry.number = call.1 → ∃ e, entry.rest = .stop e

variable {token} {step : (c : ι) → σ → ρ c × σ} {program : κ → Program ρ ε α} {earns checks : κ → Bool}
  {winner : Option (Nat × κ)} {j j' : Journal κ ρ ε α σ}

theorem Claimed.enter (claimed : Claimed token step earns checks winner j) (numbered : j.Numbered)
    (label : κ)
    (waiting : p.Waiting step token (earns label) (checks label)) :
    Claimed token step earns checks winner (j.enter label p) where
  free := claimed.free
  known n label won := Nat.lt_succ_of_lt (claimed.known n label won)
  each := List.forall_mem_cons.mpr
    ⟨.inr ⟨fun label won => Nat.lt_irrefl _ (claimed.known _ label won), waiting⟩, claimed.each⟩
  acted := claimed.acted
  taken call mem takes := (claimed.taken call mem takes).imp_right fun stopped =>
    List.forall_mem_cons.mpr
    ⟨fun same => absurd (numbered.call_lt call mem) (Nat.not_lt_of_ge (Nat.le_of_eq same)), stopped⟩

theorem Claimed.goes (claimed : Claimed token step earns checks winner j) (numbered : j.Numbered)
    (goes : Journal.Goes step (token.whileThere checks) j j') :
    ∃ winner, Claimed token step earns checks winner j' := by
  obtain ⟨free, known, each, acted, taken⟩ := claimed
  cases goes with
  | @call s before after calls n number label c next ok =>
    obtain ⟨own, others⟩ := forall_mem_middle.mp each
    -- whoever stopped after a try is not the one that makes this call
    have earlier : ∀ call ∈ calls, token.takes call.2 → (∃ label, winner = some (call.1, label)) ∨
        ∀ entry ∈ before ++ ⟨number, label, next (step c s).1⟩ :: after, entry.number = call.1 →
          ∃ e, entry.rest = .stop e := by
      intro call mem takes
      refine (taken call mem takes).imp_right fun stopped => ?_
      obtain ⟨self, rest⟩ := forall_mem_middle.mp stopped
      refine forall_mem_middle.mpr ⟨fun same => ?_, rest⟩
      obtain ⟨e, is⟩ := self same
      cases is
    have apart := numbered.ne_of_middle
    -- a call that does not take the thing leaves the winner as it is
    have stays (passes : Passes step token c) (earned : token.acts c → ∃ n label, winner = some (n, label) ∧ earns label)
        (own : (winner = some (number, label) ∧ (next (step c s).1).Spent step token (earns label)) ∨
          ((∀ label, winner ≠ some (number, label)) ∧
            (next (step c s).1).Waiting step token (earns label) (checks label))) :
        ∃ winner, Claimed token step earns checks winner
          ⟨(step c s).2, before ++ ⟨number, label, next (step c s).1⟩ :: after, calls ++ [(number, c)], n⟩ := by
      refine ⟨winner, fun there => free (passes.2 s there), known,
        forall_mem_middle.mpr ⟨own, others⟩, ?_, ?_⟩
      · exact List.forall_mem_append.mpr ⟨acted, List.forall_mem_singleton.mpr earned⟩
      · refine List.forall_mem_append.mpr ⟨earlier, List.forall_mem_singleton.mpr fun takes => ?_⟩
        rw [passes.1] at takes
        cases takes
    rcases own with ⟨won, ⟨passes, earned⟩, left⟩ | ⟨lost, quiet, left⟩
    · exact stays passes (fun acts => ⟨number, label, won, earned acts⟩) (.inl ⟨won, left _⟩)
    · have idle (acts : token.acts c) : False := by simp [quiet] at acts
      by_cases takes : token.takes c
      · rw [if_pos takes] at left
        obtain ⟨gone, spent, missed⟩ := left s
        have absent : ¬ token.present (step c s).2 := by simp [gone]
        cases there : token.present s with
        | true =>
          obtain rfl : winner = none := free there
          refine ⟨some (number, label), fun there => absurd there absent, ?_,
            forall_mem_middle.mpr ⟨?_, ?_⟩, ?_, ?_⟩
          · rintro _ _ ⟨⟩
            exact numbered.entry_lt _ (List.mem_append_right _ (List.mem_cons_self ..))
          · exact .inl ⟨rfl, spent there⟩
          · intro entry mem
            rcases others entry mem with ⟨won, _⟩ | ⟨_, waiting⟩
            · cases won
            · refine .inr ⟨fun _ won => apart entry mem ?_, waiting⟩
              exact congrArg Prod.fst (Option.some.inj won).symm
          · refine List.forall_mem_append.mpr ⟨fun call mem acts => ?_,
              List.forall_mem_singleton.mpr fun acts => (idle acts).elim⟩
            obtain ⟨_, _, won, _⟩ := acted call mem acts
            cases won
          · refine List.forall_mem_append.mpr ⟨fun call mem takes => .inr ?_,
              List.forall_mem_singleton.mpr fun _ => ?_⟩
            · exact (earlier call mem takes).resolve_left nofun
            · exact .inl ⟨label, rfl⟩
        | false =>
          have looks : checks label := (ok takes).resolve_left (by simp [there])
          obtain ⟨e, stopped⟩ := missed there looks
          refine ⟨winner, fun there => absurd there absent, known,
            forall_mem_middle.mpr ⟨?_, others⟩, ?_, ?_⟩
          · exact .inr ⟨lost, by rw [stopped]; trivial⟩
          · exact List.forall_mem_append.mpr ⟨acted,
              List.forall_mem_singleton.mpr fun acts => (idle acts).elim⟩
          · refine List.forall_mem_append.mpr ⟨earlier,
              List.forall_mem_singleton.mpr fun _ => .inr ?_⟩
            exact forall_mem_middle.mpr ⟨fun _ => ⟨e, stopped⟩,
              fun entry mem same => absurd same (apart entry mem)⟩
      · rw [if_neg takes] at left
        exact stays left.1 (fun acts => (idle acts).elim) (.inr ⟨lost, left.2 _⟩)

def Took (token : Token ι σ) (j : Journal κ ρ ε α σ) (entry : Entry κ ρ ε α) : Prop :=
  entry.rest.returned ∧ ∃ call ∈ j.calls, call.1 = entry.number ∧ token.takes call.2

instance (token : Token ι σ) (j : Journal κ ρ ε α σ) (entry : Entry κ ρ ε α) :
    Decidable (Took token j entry) :=
  inferInstanceAs (Decidable (_ ∧ _))

theorem Claimed.won (claimed : Claimed token step earns checks winner j)
    (mem : entry ∈ j.entries) (took : Took token j entry) :
    winner = some (entry.number, entry.label) := by
  obtain ⟨returned, call, made, same, takes⟩ := took
  rcases claimed.taken call made takes with ⟨label, won⟩ | stopped
  · rcases claimed.each entry mem with ⟨won, _⟩ | ⟨lost, _⟩
    · exact won
    · exact absurd (same ▸ won) (lost label)
  · obtain ⟨e, is⟩ := stopped entry mem same.symm
    rw [is] at returned
    cases returned

variable {s : σ} (reached : Journal.Reaches step program (token.whileThere checks) (.initial s) j)
  (waiting : ∀ label, (program label).Waiting step token (earns label) (checks label))
include reached waiting

theorem claimed_of_reaches : j.Numbered ∧ ∃ winner, Claimed token step earns checks winner j := by
  refine reached.invariant (fun j => j.Numbered ∧ ∃ winner,
    Claimed token step earns checks winner j)
    (fun j label claimed => ?_) (fun j j' claimed goes => ?_) ?_
  · obtain ⟨numbered, winner, claimed⟩ := claimed
    exact ⟨numbered.enter _ _, winner, claimed.enter numbered label (waiting label)⟩
  · obtain ⟨numbered, winner, claimed⟩ := claimed
    exact ⟨numbered.goes goes, claimed.goes numbered goes⟩
  · exact ⟨Journal.numbered_initial s, none, fun _ => rfl, nofun, nofun, nofun, nofun⟩

theorem took_once {other : Entry κ ρ ε α} (mem : entry ∈ j.entries) (mem' : other ∈ j.entries)
    (took : Took token j entry) (took' : Took token j other) : entry = other := by
  obtain ⟨numbered, winner, claimed⟩ := claimed_of_reaches reached waiting
  have same := (claimed.won mem took).symm.trans (claimed.won mem' took')
  exact numbered.eq_of_number mem mem' (congrArg Prod.fst (Option.some.inj same))

theorem no_acts (mem : entry ∈ j.entries) (took : Took token j entry)
    (idle : earns entry.label = false) : ∀ call ∈ j.calls, token.acts call.2 = false := by
  obtain ⟨numbered, winner, claimed⟩ := claimed_of_reaches reached waiting
  intro call made
  by_contra acts
  obtain ⟨n, label, won, earned⟩ := claimed.acted call made (by simpa using acts)
  obtain ⟨_, rfl⟩ : entry.number = n ∧ entry.label = label := by
    simpa using (claimed.won mem took).symm.trans won
  rw [idle] at earned
  cases earned

end Token

end Tokens

/-! ## Programs that rewrite a part of the state -/

variable {κ ι σ ε α β ν : Type} {ρ : ι → Type}

namespace Program

variable (step : (c : ι) → σ → ρ c × σ) (view : σ → ν) (edit : ν → ν) (holds : Program ρ ε α → Bool)
  {p : Program ρ ε α} {marked : List (Bool × Entry κ ρ ε α)}

def nextIs (test : ι → Bool) : Program ρ ε α → Bool
  | .call c _ => test c
  | _ => false

def Leaves (p : Program ρ ε α) : Prop := p.Only fun c => ∀ s, view (step c s).2 = view s

def Holding (read : ν) : Program ρ ε α → Prop
  | .ret _ => False
  | .stop _ => True
  | .call c next => holds (.call c next) ∧ ((∀ s, view (step c s).2 = view s ∧ (next (step c s).1).Holding read) ∨
        ∀ s, view (step c s).2 = edit read ∧ (next (step c s).1).Leaves step view)

def Editing : Program ρ ε α → Prop
  | .ret _ => False
  | .stop _ => True
  | .call c next => ∀ s, view (step c s).2 = view s ∧
      ((next (step c s).1).Editing ∨ (next (step c s).1).Holding step view edit holds (view s))

variable {step view edit holds} {read : ν}

theorem Holding.held (holding : p.Holding step view edit holds read) : p.ended ∨ holds p := by
  cases p with
  | ret | stop => exact .inl rfl
  | call => exact .inr holding.1

theorem Holding.of_ended (holding : p.Holding step view edit holds read) (ended : p.ended)
    (other : ν) :
    p.Holding step view edit holds other := by
  cases p with
  | ret => exact holding
  | stop => trivial
  | call => cases ended

theorem Leaves.editing {p : Program ρ ε β} {f : β → Program ρ ε α} (leaves : p.Leaves step view)
    (rest : ∀ b, (f b).Editing step view edit holds) : (p >>= f).Editing step view edit holds := by
  induction p with
  | ret b => exact rest b
  | stop e => trivial
  | call c next ih => exact fun s => ⟨leaves.1 s, .inl (ih _ (leaves.2 _))⟩

theorem editing_read {c : ι} {f : ρ c → Program ρ ε α} (same : ∀ s, view (step c s).2 = view s)
    (rest : ∀ s, (f (step c s).1).Holding step view edit holds (view s)) :
    (perform c >>= f).Editing step view edit holds :=
  fun s => ⟨same s, .inr (rest s)⟩

theorem holding_call {c : ι} {f : ρ c → Program ρ ε α} (held : holds (perform c >>= f))
    (same : ∀ s, view (step c s).2 = view s)
    (rest : ∀ answer, (f answer).Holding step view edit holds read) :
    (perform c >>= f).Holding step view edit holds read :=
  ⟨held, .inl fun s => ⟨same s, rest _⟩⟩

theorem holding_write {c : ι} {f : ρ c → Program ρ ε α} (held : holds (perform c >>= f))
    (written : ∀ s, view (step c s).2 = edit read) (rest : ∀ answer, (f answer).Leaves step view) :
    (perform c >>= f).Holding step view edit holds read :=
  ⟨held, .inr fun s => ⟨written s, rest _⟩⟩

theorem editing_ite {condition : Prop} [Decidable condition] {q : Program ρ ε α}
    (yes : condition → p.Editing step view edit holds)
    (no : ¬ condition → q.Editing step view edit holds) :
    (if condition then p else q).Editing step view edit holds := by
  split
  · next holds => exact yes holds
  · next fails => exact no fails

theorem editing_guard {condition : Prop} [Decidable condition] {e : ε} {f : PUnit → Program ρ ε α}
    (rest : (f ⟨⟩).Editing step view edit holds) :
    (if condition then stop e >>= f else f ⟨⟩).Editing step view edit holds :=
  editing_ite (fun _ => trivial) fun _ => rest

end Program

namespace Journal

def inTurn (writes : ι → Bool) (holds : Program ρ ε α → Bool) : Allows κ ρ ε α σ :=
  fun _ c _ others =>
  writes c → ∀ other ∈ others, !holds other.rest

instance (writes : ι → Bool) (holds : Program ρ ε α → Bool) (label : κ) (c : ι) (s : σ)
    (others : List (Entry κ ρ ε α)) :
    Decidable (inTurn writes holds label c s others) := inferInstanceAs (Decidable (_ → _))

variable {step : (c : ι) → σ → ρ c × σ} {view : σ → ν} {edit : κ → ν → ν} {program : κ → Program ρ ε α}
  {writes : ι → Bool} {holds : Program ρ ε α → Bool} {base : ν}

def Left (step : (c : ι) → σ → ρ c × σ) (view : σ → ν) (edit : κ → ν → ν)
    (holds : Program ρ ε α → Bool) (now : ν)
    (written : Bool) (entry : Entry κ ρ ε α) : Prop :=
  if written then entry.rest.Leaves step view
  else entry.rest.Editing step view (edit entry.label) holds ∨ entry.rest.Holding step view (edit entry.label) holds now

structure Edited (step : (c : ι) → σ → ρ c × σ) (view : σ → ν) (edit : κ → ν → ν)
    (holds : Program ρ ε α → Bool) (base : ν) (marked : List (Bool × Entry κ ρ ε α)) (order : List κ)
    (j : Journal κ ρ ε α σ) : Prop where
  entries : marked.map Prod.snd = j.entries
  permuted : order.Perm ((marked.filter Prod.fst).map fun mark => mark.2.label)
  made : view j.state = order.foldl (fun v label => edit label v) base
  left : ∀ mark ∈ marked, Left step view edit holds (view j.state) mark.1 mark.2

theorem Edited.enter {j : Journal κ ρ ε α σ} {order : List κ}
    (edited : Edited step view edit holds base marked order j) {label : κ}
    (edits : p.Editing step view (edit label) holds) :
    Edited step view edit holds base ((false, ⟨j.started, label, p⟩) :: marked) order (j.enter label p) where
  entries := congrArg (_ :: ·) edited.entries
  permuted := edited.permuted
  made := edited.made
  left := List.forall_mem_cons.mpr ⟨.inl edits, edited.left⟩

theorem Edited.goes {j j' : Journal κ ρ ε α σ} {order : List κ}
    (edited : Edited step view edit holds base marked order j)
    (quiet : ∀ c, writes c = false → ∀ s, view (step c s).2 = view s)
    (goes : Goes step (inTurn writes holds) j j') :
    ∃ marked order, Edited step view edit holds base marked order j' := by
  obtain ⟨entries, permuted, same, left⟩ := edited
  cases goes with
  | @call s before after calls n number label c next alone =>
    obtain ⟨front, _, rfl, rfl, later⟩ := List.map_eq_append_iff.mp entries
    obtain ⟨⟨written, _⟩, back, rfl, rfl, rfl⟩ := List.map_eq_cons_iff.mp later
    obtain ⟨own, rest⟩ := forall_mem_middle.mp left
    -- a call that leaves the part alone leaves everybody else where they are
    have still (unchanged : view (step c s).2 = view s)
        (own' : Left step view edit holds (view s) written ⟨number, label, next (step c s).1⟩) :
        ∃ marked order, Edited step view edit holds base marked order
          ⟨(step c s).2, front.map Prod.snd ++ ⟨number, label, next (step c s).1⟩ :: back.map Prod.snd,
            calls ++ [(number, c)], n⟩ := by
      refine ⟨front ++ (written, ⟨number, label, next (step c s).1⟩) :: back, order, by simp, ?_,
        unchanged.trans same, ?_⟩
      · refine permuted.trans (.of_eq ?_)
        cases written <;> simp
      · rw [forall_mem_middle]
        dsimp only
        rw [unchanged]
        exact ⟨own', rest⟩
    cases written with
    | true => exact still (own.1 s) (own.2 _)
    | false =>
      rcases own with editing | ⟨_, stays | writesIt⟩
      · exact still (editing s).1 (editing s).2
      · exact still (stays s).1 (.inr (stays s).2)
      · obtain ⟨now, leaves⟩ := writesIt s
        refine ⟨front ++ (true, ⟨number, label, next (step c s).1⟩) :: back, order ++ [label],
          by simp, ?_, ?_, ?_⟩
        · refine (List.perm_append_singleton label order).trans ?_
          simp only [List.filter_append, List.filter_cons_of_pos, List.map_append, List.map_cons]
          refine (List.Perm.cons label permuted).trans ?_
          simp only [List.filter_append, List.filter_cons_of_neg, List.map_append,
            Bool.false_eq_true, not_false_eq_true]
          exact List.perm_middle.symm
        · rw [List.foldl_append, ← same]
          exact now
        · refine forall_mem_middle.mpr ⟨leaves, fun mark mem => ?_⟩
          have was := rest mark mem
          obtain ⟨written, entry⟩ := mark
          cases written with
          | true => exact was
          | false =>
            rcases was with editing | holding
            · exact .inl editing
            · by_cases wrote : writes c
              · have idle := alone wrote entry (by
                  rw [← List.map_append]
                  exact List.mem_map_of_mem mem)
                have finished : entry.rest.ended := holding.held.resolve_right (by simpa using idle)
                exact .inr (holding.of_ended finished _)
              · dsimp only
                rw [quiet c (by simpa using wrote) s]
                exact .inr holding

theorem Reaches.edited {s : σ} {j : Journal κ ρ ε α σ}
    (reached : Reaches step program (inTurn writes holds) (.initial s) j)
    (edits : ∀ label, (program label).Editing step view (edit label) holds)
    (quiet : ∀ c, writes c = false → ∀ s, view (step c s).2 = view s)
    (all : ∀ entry ∈ j.entries, entry.rest.returned) :
    ∃ order : List κ, order.Perm (j.entries.map Entry.label) ∧
      view j.state = order.foldl (fun v label => edit label v) (view s) := by
  have edited : ∃ marked order, Edited step view edit holds (view s) marked order j := by
    refine reached.invariant (fun j => ∃ marked order,
      Edited step view edit holds (view s) marked order j)
      (fun j label edited => ?_) (fun j j' edited goes => ?_) ⟨[], [], rfl, .nil, rfl, nofun⟩
    · obtain ⟨marked, order, edited⟩ := edited
      exact ⟨_, order, edited.enter (edits label)⟩
    · obtain ⟨marked, order, edited⟩ := edited
      exact edited.goes quiet goes
  obtain ⟨marked, order, entries, permuted, same, left⟩ := edited
  refine ⟨order, permuted.trans ?_, same⟩
  have written : ∀ mark ∈ marked, mark.1 = true := by
    intro mark mem
    have returned := all mark.2 (entries ▸ List.mem_map_of_mem mem)
    have fits := left mark mem
    obtain ⟨written, number, label, rest⟩ := mark
    cases written with
    | true => rfl
    | false =>
      -- a program that has yet to write the part has not returned
      cases rest with
      | ret a => exact fits.elim False.elim False.elim
      | stop | call => cases returned
  rw [List.filter_eq_self.mpr written, ← entries, List.map_map]
  rfl

section Keys

variable {K W : Type} [DecidableEq K] {lookup : ν → K → W} {key : κ → K} {value : κ → W}

theorem lookup_edits (law : ∀ label v k, lookup (edit label v) k = if key label = k then value label else lookup v k)
    {order : List κ} (distinct : (order.map key).Nodup) (base : ν) :
    (∀ label ∈ order, lookup (order.foldl (fun v label => edit label v) base) (key label) = value label) ∧
      ∀ k ∉ order.map key, lookup (order.foldl (fun v label => edit label v) base) k = lookup base k := by
  induction order generalizing base with
  | nil => exact ⟨nofun, fun _ _ => rfl⟩
  | cons label rest ih =>
    obtain ⟨absent, distinct⟩ := List.nodup_cons.mp distinct
    obtain ⟨each, elsewhere⟩ := ih distinct (edit label base)
    refine ⟨List.forall_mem_cons.mpr ⟨?_, each⟩, fun k out => ?_⟩
    · rw [List.foldl_cons, elsewhere _ absent, law, if_pos rfl]
    · rw [List.map_cons, List.mem_cons, not_or] at out
      rw [List.foldl_cons, elsewhere k out.2, law, if_neg (Ne.symm out.1)]

theorem Reaches.edited_apart {s : σ} {j : Journal κ ρ ε α σ}
    (reached : Reaches step program (inTurn writes holds) (.initial s) j)
    (edits : ∀ label, (program label).Editing step view (edit label) holds)
    (quiet : ∀ c, writes c = false → ∀ s, view (step c s).2 = view s)
    (all : ∀ entry ∈ j.entries, entry.rest.returned)
    (law : ∀ label v k, lookup (edit label v) k = if key label = k then value label else lookup v k)
    (distinct : (j.entries.map fun entry => key entry.label).Nodup) :
    (∀ entry ∈ j.entries, lookup (view j.state) (key entry.label) = value entry.label) ∧
      ∀ k, (∀ entry ∈ j.entries, key entry.label ≠ k) → lookup (view j.state) k = lookup (view s) k := by
  obtain ⟨order, permuted, made⟩ := reached.edited edits quiet all
  have keys : (order.map key).Perm (j.entries.map fun entry => key entry.label) := by
    simpa [Function.comp_def] using permuted.map key
  obtain ⟨each, elsewhere⟩ := lookup_edits law (keys.nodup_iff.mpr distinct) (view s)
  rw [made]
  refine ⟨fun entry mem => each _ (permuted.mem_iff.mpr (List.mem_map_of_mem mem)),
    fun k others => ?_⟩
  refine elsewhere k fun mem => ?_
  obtain ⟨entry, mem, same⟩ := List.mem_map.mp (keys.mem_iff.mp mem)
  exact others entry mem same

end Keys

end Journal

end CincServer.Lib
