import Mathlib.Logic.Basic
import Mathlib.Logic.Relation

/-!
# Programs that call a store
-/

namespace CincServer.Lib

inductive Program {ι : Type} (ρ : ι → Type) (ε α : Type)
  | ret (result : α)
  | stop (reason : ε)
  | call (c : ι) (next : ρ c → Program ρ ε α)

namespace Program

variable {ι σ ε α β γ : Type} {ρ : ι → Type}

def bind : Program ρ ε α → (α → Program ρ ε β) → Program ρ ε β
  | .ret a, f => f a
  | .stop e, _ => .stop e
  | .call c next, f => .call c fun answer => (next answer).bind f

instance : Monad (Program ρ ε) where
  pure := .ret
  bind := bind

theorem bind_bind (p : Program ρ ε α) (f : α → Program ρ ε β) (g : β → Program ρ ε γ) :
    p >>= f >>= g = p >>= fun a => f a >>= g := by
  induction p with
  | ret | stop => rfl
  | call c next ih => exact congrArg (Program.call c) (funext ih)

def perform (c : ι) : Program ρ ε (ρ c) := .call c .ret

def run (step : (c : ι) → σ → ρ c × σ) : Program ρ ε α → σ → Except ε α × σ
  | .ret a, s => (.ok a, s)
  | .stop e, s => (.error e, s)
  | .call c next, s => (next (step c s).1).run step (step c s).2

variable {step : (c : ι) → σ → ρ c × σ} {s t : σ}

@[simp] theorem run_pure (a : α) : (pure a : Program ρ ε α).run step s = (.ok a, s) := rfl

@[simp] theorem run_stop (e : ε) : (stop e : Program ρ ε α).run step s = (.error e, s) := rfl

@[simp] theorem run_pure_bind (a : α)
    (f : α → Program ρ ε β) : (pure a >>= f).run step s = (f a).run step s := rfl

@[simp] theorem run_stop_bind (e : ε) (f : α → Program ρ ε β) :
    ((stop e : Program ρ ε α) >>= f).run step s = (.error e, s) := rfl

theorem run_bind (p : Program ρ ε α)
    (f : α → Program ρ ε β) : (p >>= f).run step s = match p.run step s with
      | (.ok a, s') => (f a).run step s'
      | (.error e, s') => (.error e, s') := by
  induction p generalizing s with
  | ret | stop => rfl
  | call c next ih => exact ih (step c s).1

theorem run_bind_of_ok {p : Program ρ ε α} {a : α} (ran : p.run step s = (.ok a, t))
    (f : α → Program ρ ε β) : (p >>= f).run step s = (f a).run step t := by
  rw [run_bind, ran]

theorem run_of_isOk {p : Program ρ ε α} (ok : (p.run step s).1.isOk) :
    ∃ a, p.run step s = (.ok a, (p.run step s).2) := by
  revert ok
  rcases p.run step s with ⟨_ | a, t⟩
  · nofun
  · exact fun _ => ⟨a, rfl⟩

theorem run_forM {body : γ → Program ρ ε PUnit} {effect : γ → σ → σ}
    (total : ∀ x s, (body x).run step s = (.ok (), effect x s)) (xs : List γ) (s : σ) :
    (xs.forM body).run step s = (.ok (), xs.foldl (fun s x => effect x s) s) := by
  induction xs generalizing s with
  | nil => rfl
  | cons x xs ih =>
    rw [List.forM_eq_forM, List.forM_cons, run_bind_of_ok (total x s)]
    exact ih (effect x s)

theorem run_bind_ok {p : Program ρ ε α} {f : α → Program ρ ε β}
    {b : β} : (p >>= f).run step s = (.ok b, t) ↔
      ∃ a s', p.run step s = (.ok a, s') ∧ (f a).run step s' = (.ok b, t) := by
  rw [run_bind]
  rcases p.run step s with ⟨_ | a, s'⟩
  · simp
  · constructor
    · intro ok
      exact ⟨a, s', rfl, ok⟩
    · rintro ⟨_, _, ⟨⟩, ok⟩
      exact ok

end Program

/-! ## Programs in flight together -/

variable {ι σ ε α β γ : Type} {ρ : ι → Type} {step : (c : ι) → σ → ρ c × σ} {inv : σ → Prop} {p : Program ρ ε α}

namespace Program

variable {body : γ → Program ρ ε PUnit}

def Keeps (step : (c : ι) → σ → ρ c × σ) (inv : σ → Prop) : Program ρ ε α → Prop
  | .ret _ => True
  | .stop _ => True
  | .call c next => ∀ s, inv s → inv (step c s).2 ∧ (next (step c s).1).Keeps step inv

theorem Keeps.run (keeps : p.Keeps step inv) {s : σ} (holds : inv s) : inv (p.run step s).2 := by
  induction p generalizing s with
  | ret | stop => exact holds
  | call c next ih =>
    obtain ⟨kept, more⟩ := keeps s holds
    exact ih _ more kept

/-- Every call the program may make, whatever the answers, is one of the allowed ones. -/
def Only (allowed : ι → Prop) : Program ρ ε α → Prop
  | .ret _ => True
  | .stop _ => True
  | .call c next => allowed c ∧ ∀ answer, (next answer).Only allowed

variable {allowed : ι → Prop}

theorem only_pure (a : α) : (pure a : Program ρ ε α).Only allowed := trivial

theorem only_stop (e : ε) : (stop e : Program ρ ε α).Only allowed := trivial

theorem only_perform {c : ι} (ok : allowed c) : (perform c : Program ρ ε (ρ c)).Only allowed :=
  ⟨ok, fun _ => trivial⟩

theorem Only.bind {f : α → Program ρ ε β} (first : p.Only allowed)
    (rest : ∀ a, (f a).Only allowed) : (p >>= f).Only allowed := by
  induction p with
  | ret a => exact rest a
  | stop e => trivial
  | call c next ih => exact ⟨first.1, fun answer => ih answer (first.2 answer)⟩

theorem only_ite {condition : Prop} [Decidable condition] {q : Program ρ ε α}
    (yes : condition → p.Only allowed) (no : ¬ condition → q.Only allowed) :
    (if condition then p else q).Only allowed := by
  split
  · next holds => exact yes holds
  · next fails => exact no fails

theorem only_option {γ : Type} {f : Option γ → Program ρ ε α} (absent : (f none).Only allowed)
    (found : ∀ x, (f (some x)).Only allowed) (o : Option γ) : (f o).Only allowed := by
  cases o with
  | none => exact absent
  | some x => exact found x

theorem only_guard {condition : Prop} [Decidable condition] {refused : Program ρ ε PUnit}
    {f : PUnit → Program ρ ε α} (no : refused.Only allowed) (rest : (f ⟨⟩).Only allowed) :
    (if condition then refused >>= f else f ⟨⟩).Only allowed :=
  only_ite (fun _ => no.bind fun _ => rest) fun _ => rest

theorem only_forM (each : ∀ x, (body x).Only allowed) (xs : List γ) :
    (xs.forM body).Only allowed := by
  induction xs with
  | nil => exact only_pure _
  | cons x xs ih => exact (each x).bind fun _ => ih

theorem Only.mono {allowed' : ι → Prop} (only : p.Only allowed)
    (wider : ∀ c, allowed c → allowed' c) : p.Only allowed' := by
  induction p with
  | ret | stop => trivial
  | call c next ih => exact ⟨wider c only.1, fun answer => ih answer (only.2 answer)⟩

theorem only_of_forall (all : ∀ c, allowed c) (p : Program ρ ε α) : p.Only allowed := by
  induction p with
  | ret | stop => trivial
  | call c next ih => exact ⟨all c, ih⟩

theorem Only.keeps (only : p.Only allowed)
    (kept : ∀ c, allowed c → ∀ s, inv s → inv (step c s).2) : p.Keeps step inv := by
  induction p with
  | ret | stop => trivial
  | call c next ih =>
    intro s holds
    exact ⟨kept c only.1 s holds, ih _ (only.2 _)⟩

structure Modular (P : (α : Type) → Program ρ ε α → Prop) : Prop where
  pure {α : Type} (a : α) : P α (pure a)
  bind {α β : Type} {p : Program ρ ε α} {f : α → Program ρ ε β} (first : P α p) (rest : ∀ a, P β (f a)) : P β (p >>= f)

theorem Modular.forM {P : (α : Type) → Program ρ ε α → Prop} (modular : Modular P)
    (each : ∀ x, P PUnit (body x)) (xs : List γ) : P PUnit (xs.forM body) := by
  induction xs with
  | nil => exact modular.pure _
  | cons x xs ih => exact modular.bind (each x) fun _ => ih

theorem only_modular (allowed : ι → Prop) : Modular fun α (p : Program ρ ε α) => p.Only allowed :=
  ⟨only_pure, Only.bind⟩

def forget (p : Program ρ ε α) : Program ρ ε Unit := p >>= fun _ => pure ()

theorem Only.forget (only : p.Only allowed) : p.forget.Only allowed :=
  only.bind fun _ => only_pure _

theorem run_forget (p : Program ρ ε α) (s : σ) : (p.forget.run step s).2 = (p.run step s).2 := by
  rw [Program.forget, run_bind]
  rcases p.run step s with ⟨_ | a, t⟩ <;> rfl

end Program

structure Pool (ρ : ι → Type) (ε α σ : Type) where
  state : σ
  running : List (Program ρ ε α)

variable {pool pool' : Pool ρ ε α σ}

namespace Pool

inductive Step (step : (c : ι) → σ → ρ c × σ)
    (admitted : Program ρ ε α → Prop) : Pool ρ ε α σ → Pool ρ ε α σ → Prop
  | enter {s : σ} {running : List (Program ρ ε α)} {p : Program ρ ε α} (ok : admitted p) :
      Step step admitted ⟨s, running⟩ ⟨s, p :: running⟩
  | call {s : σ} {before after : List (Program ρ ε α)} {c : ι} {next : ρ c → Program ρ ε α} :
      Step step admitted ⟨s, before ++ .call c next :: after⟩ ⟨(step c s).2, before ++ next (step c s).1 :: after⟩
  | leave {s : σ} {before after : List (Program ρ ε α)} {p : Program ρ ε α} :
      Step step admitted ⟨s, before ++ p :: after⟩ ⟨s, before ++ after⟩

variable {admitted : Program ρ ε α → Prop} {start s : σ}

def Reaches (step : (c : ι) → σ → ρ c × σ) (admitted : Program ρ ε α → Prop) (start s : σ) : Prop :=
  ∃ running, Relation.ReflTransGen (Step step admitted) ⟨start, []⟩ ⟨s, running⟩

structure Safe (step : (c : ι) → σ → ρ c × σ) (inv : σ → Prop) (pool : Pool ρ ε α σ) : Prop where
  state : inv pool.state
  running : ∀ p ∈ pool.running, p.Keeps step inv

theorem Safe.move (keeps : ∀ p, admitted p → p.Keeps step inv)
    (safe : Safe step inv pool) (move : Step step admitted pool pool') : Safe step inv pool' := by
  obtain ⟨holds, rest⟩ := safe
  cases move with
  | enter ok => exact ⟨holds, List.forall_mem_cons.mpr ⟨keeps _ ok, rest⟩⟩
  | call =>
    simp only [List.forall_mem_append, List.forall_mem_cons] at rest
    obtain ⟨before, here, after⟩ := rest
    obtain ⟨kept, more⟩ := here _ holds
    exact ⟨kept, by simp only [List.forall_mem_append, List.forall_mem_cons]; exact ⟨before, more, after⟩⟩
  | leave =>
    simp only [List.forall_mem_append, List.forall_mem_cons] at rest
    exact ⟨holds, by simp only [List.forall_mem_append]; exact ⟨rest.1, rest.2.2⟩⟩

theorem Safe.path (keeps : ∀ p, admitted p → p.Keeps step inv)
    (safe : Safe step inv pool) (path : Relation.ReflTransGen (Step step admitted) pool pool') :
    Safe step inv pool' := by
  induction path with
  | refl => exact safe
  | tail _ move ih => exact ih.move keeps move

theorem Reaches.invariant (reached : Reaches step admitted start s)
    (keeps : ∀ p, admitted p → p.Keeps step inv) (initial : inv start) : inv s := by
  obtain ⟨running, path⟩ := reached
  have empty : Safe step inv (⟨start, []⟩ : Pool ρ ε α σ) := ⟨initial, nofun⟩
  exact (empty.path keeps path).state

theorem run_path (p : Program ρ ε α) (s : σ) (running : List (Program ρ ε α)) :
    ∃ ended, Relation.ReflTransGen (Step step admitted) ⟨s, p :: running⟩ ⟨(p.run step s).2, ended :: running⟩ := by
  induction p generalizing s with
  | ret | stop => exact ⟨_, .refl⟩
  | call c next ih =>
    obtain ⟨ended, path⟩ := ih (step c s).1 (step c s).2
    have first : Step step admitted ⟨s, [] ++ .call c next :: running⟩
        ⟨(step c s).2, [] ++ next (step c s).1 :: running⟩ := .call
    exact ⟨ended, .head first path⟩

theorem Reaches.refl : Reaches step admitted start start := ⟨[], .refl⟩

theorem Reaches.run (reached : Reaches step admitted start s) (ok : admitted p) :
    Reaches step admitted start (p.run step s).2 := by
  obtain ⟨running, path⟩ := reached
  obtain ⟨ended, more⟩ := run_path p s running
  exact ⟨_, (path.tail (.enter ok)).trans more⟩

end Pool

/-! ## Requests served one after another -/

variable {κ ι σ ε α β γ : Type} {ρ : ι → Type} {step : (c : ι) → σ → ρ c × σ}
  {p q : Program ρ ε α} {f : α → Program ρ ε β} {condition : Prop}

namespace Program

/-- A run from the state ends with a result that has the postcondition, or stops in a state that has
`stopped`. -/
def Leads (step : (c : ι) → σ → ρ c × σ) (stopped : σ → Prop) (p : Program ρ ε α) (s : σ)
    (post : α → σ → Prop) : Prop :=
  match p.run step s with
  | (.ok a, t) => post a t
  | (.error _, t) => stopped t

variable {stopped inv : σ → Prop} {s : σ} {post post' : α → σ → Prop}

theorem leads_pure {a : α} (holds : post a s) :
    Leads step stopped (pure a : Program ρ ε α) s post := holds

theorem leads_stop {e : ε} (holds : stopped s) :
    Leads step stopped (stop e : Program ρ ε α) s post := holds

theorem leads_perform {c : ι} {post : ρ c → σ → Prop} (holds : post (step c s).1 (step c s).2) :
    Leads step stopped (perform c : Program ρ ε (ρ c)) s post := holds

theorem leads_bind {post : β → σ → Prop} : Leads step stopped (p >>= f) s post ↔
      Leads step stopped p s fun a t => Leads step stopped (f a) t post := by
  unfold Leads
  rw [run_bind]
  rcases p.run step s with ⟨_ | a, t⟩ <;> rfl

theorem leads_iff : Leads step inv p s (fun _ => inv) ↔ inv (p.run step s).2 := by
  unfold Leads
  rcases p.run step s with ⟨_ | a, t⟩ <;> rfl

theorem Leads.mono (leads : Leads step stopped p s post)
    (weaker : ∀ a t, post a t → post' a t) : Leads step stopped p s post' := by
  unfold Leads at leads ⊢
  split at leads
  · exact weaker _ _ leads
  · exact leads

theorem Leads.then {post' : β → σ → Prop}
    (first : Leads step stopped p s post)
    (rest : ∀ a t, post a t → Leads step stopped (f a) t post') :
    Leads step stopped (p >>= f) s post' :=
  leads_bind.mpr (first.mono rest)

theorem Leads.past {known : α → Prop} {post' : β → σ → Prop}
    (first : Leads step stopped p s fun a t => t = s ∧ known a)
    (rest : ∀ a, known a → Leads step stopped (f a) s post') :
    Leads step stopped (p >>= f) s post' := by
  refine first.then ?_
  rintro a _ ⟨rfl, holds⟩
  exact rest a holds

theorem Leads.still {post' : β → σ → Prop} (first : Leads step stopped p s fun _ t => t = s)
    (rest : ∀ a, Leads step stopped (f a) s post') : Leads step stopped (p >>= f) s post' :=
  first.then fun a _ same => same ▸ rest a

theorem leads_ite [Decidable condition]
    (yes : condition → Leads step stopped p s post)
    (no : ¬ condition → Leads step stopped q s post) :
    Leads step stopped (if condition then p else q) s post := by
  split
  · next holds => exact yes holds
  · next fails => exact no fails

theorem leads_guard [Decidable condition] {e : ε} {f : PUnit → Program ρ ε α}
    (refused : stopped s) (rest : ¬ condition → Leads step stopped (f ⟨⟩) s post) :
    Leads step stopped (if condition then stop e >>= f else f ⟨⟩) s post :=
  leads_ite (fun _ => leads_stop refused) rest

theorem Only.leads {allowed : ι → Prop} (only : p.Only allowed)
    (kept : ∀ c, allowed c → ∀ s, inv s → inv (step c s).2) (holds : inv s) :
    Leads step inv p s fun _ => inv := by
  have after : inv (p.run step s).2 := (only.keeps kept).run holds
  unfold Leads
  split
  all_goals next ran => rwa [ran] at after

theorem Only.still (only : p.Only fun c => ∀ s, (step c s).2 = s) (holds : stopped s) :
    Leads step stopped p s fun _ t => t = s := by
  have keeps : p.Keeps step (· = s) := only.keeps fun c same t here => by rw [same t, here]
  have after : (p.run step s).2 = s := keeps.run rfl
  unfold Leads
  split
  · next ran => rwa [ran] at after
  · next ran =>
    rw [ran] at after
    obtain rfl : _ = s := after
    exact holds

section Ends

def Yields (ok : ε → Prop) (post : α → Prop) : Program ρ ε α → Prop
  | .ret a => post a
  | .stop e => ok e
  | .call _ next => ∀ answer, (next answer).Yields ok post

variable {ok : ε → Prop} {post : α → Prop}

theorem Yields.bind {post' : β → Prop} (first : p.Yields ok post)
    (rest : ∀ a, post a → (f a).Yields ok post') : (p >>= f).Yields ok post' := by
  induction p with
  | ret a => exact rest a first
  | stop e => exact first
  | call c next ih => exact fun answer => ih answer (first answer)

theorem Yields.mono {post' : α → Prop} (yields : p.Yields ok post)
    (weaker : ∀ a, post a → post' a) : p.Yields ok post' := by
  induction p with
  | ret a => exact weaker a yields
  | stop e => exact yields
  | call c next ih => exact fun answer => ih answer (yields answer)

theorem yields_ite [Decidable condition] (yes : condition → p.Yields ok post)
    (no : ¬ condition → q.Yields ok post) :
    (if condition then p else q).Yields ok post := by
  split
  · next holds => exact yes holds
  · next fails => exact no fails

theorem yields_forM {body : γ → Program ρ ε PUnit} (each : ∀ x, (body x).Yields ok fun _ => True)
    (xs : List γ) :
    (xs.forM body).Yields ok fun _ => True := by
  induction xs with
  | nil => trivial
  | cons x xs ih => exact (each x).bind fun _ _ => ih

def Ends (step : (c : ι) → σ → ρ c × σ) (ok : ε → Prop) (post : α → Prop) (p : Program ρ ε α)
    (s : σ) : Prop :=
  match (p.run step s).1 with
  | .ok a => post a
  | .error e => ok e

theorem Yields.ends (yields : p.Yields ok post) (s : σ) : Ends step ok post p s := by
  induction p generalizing s with
  | ret | stop => exact yields
  | call c next ih => exact ih _ (yields _) _

theorem ends_ite [Decidable condition] {s : σ}
    (yes : condition → Ends step ok post p s) (no : ¬ condition → Ends step ok post q s) :
    Ends step ok post (if condition then p else q) s := by
  split
  · next holds => exact yes holds
  · next fails => exact no fails

theorem Ends.then {post' : β → Prop} {s : σ} {middle : α → σ → Prop}
    (first : Ends step ok post p s) (leads : Leads step (fun _ => True) p s middle)
    (rest : ∀ a t, middle a t → Ends step ok post' (f a) t) : Ends step ok post' (p >>= f) s := by
  unfold Ends Leads at *
  rw [run_bind]
  revert first leads
  rcases p.run step s with ⟨e | a, t⟩
  · exact fun first _ => first
  · exact fun _ leads => rest a t leads

end Ends

end Program

inductive Session (step : (c : ι) → σ → ρ c × σ) (program : κ → Program ρ ε α)
    (allowed : κ → σ → Prop)
    (start : σ) : σ → Prop
  | start : Session step program allowed start start
  | serve {s : σ} (reached : Session step program allowed start s) (request : κ) (ok : allowed request s) :
      Session step program allowed start ((program request).run step s).2

theorem Session.all {program : κ → Program ρ ε α} {allowed : κ → σ → Prop} {start s : σ}
    (reached : Session step program allowed start s) {requests : List κ}
    (ok : ∀ request ∈ requests, ∀ t, allowed request t) :
    Session step program allowed start (requests.foldl (fun s request => ((program request).run step s).2) s) := by
  induction requests generalizing s with
  | nil => exact reached
  | cons request requests ih =>
    obtain ⟨first, rest⟩ := List.forall_mem_cons.mp ok
    exact ih (.serve reached request (first s)) rest

theorem Session.invariant {program : κ → Program ρ ε α} {allowed : κ → σ → Prop} {start s : σ}
    {inv : σ → Prop}
    (reached : Session step program allowed start s) (initial : inv start)
    (kept : ∀ request s, Session step program allowed start s → allowed request s → inv s →
      (program request).Leads step inv s fun _ => inv) : inv s := by
  induction reached with
  | start => exact initial
  | serve reached request ok ih =>
    have leads := kept request _ reached ok ih
    unfold Program.Leads at leads
    split at leads
    · next ran => rwa [ran]
    · next ran => rwa [ran]

end CincServer.Lib
