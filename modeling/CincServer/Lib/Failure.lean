import CincServer.Lib.Program

/-!
# Programs that fail part-way
-/

namespace CincServer.Lib.Program

variable {ι σ ε ε' α β : Type} {ρ : ι → Type} {p : Program ρ ε α} {f : α → Program ρ ε β}

def catching : Program ρ ε α → (ε → Program ρ ε' α) → Program ρ ε' α
  | .ret a, _ => .ret a
  | .stop e, handler => handler e
  | .call c next, handler => .call c fun answer => (next answer).catching handler

def attempt (step : (c : ι) → σ → Except ε (ρ c × σ)) : Program ρ ε α → σ → Except ε (α × σ)
  | .ret a, s => .ok (a, s)
  | .stop e, _ => .error e
  | .call c next, s =>
    match step c s with
    | .ok (answer, t) => (next answer).attempt step t
    | .error e => .error e

def Cut (step : (c : ι) → σ → ρ c × σ) : Program ρ ε α → σ → σ → Prop
  | .ret _, s, t => t = s
  | .stop _, s, t => t = s
  | .call c next, s, t => t = s ∨ Cut step (next (step c s).1) (step c s).2 t

variable {step : (c : ι) → σ → ρ c × σ} {s t : σ}

theorem cut_start (p : Program ρ ε α) : Cut step p s s := by
  cases p with
  | ret | stop => rfl
  | call c next => exact .inl rfl

def after (step : (c : ι) → σ → ρ c × σ) : Nat → Program ρ ε α → σ → σ
  | n + 1, .call c next, s => after step n (next (step c s).1) (step c s).2
  | _, _, s => s

theorem cut_after (n : Nat) (p : Program ρ ε α) (s : σ) : Cut step p s (after step n p s) := by
  induction n generalizing p s with
  | zero => exact cut_start p
  | succ n ih =>
    cases p with
    | ret | stop => rfl
    | call c next => exact .inr (ih _ _)

theorem cut_run (p : Program ρ ε α) (s : σ) : Cut step p s (p.run step s).2 := by
  induction p generalizing s with
  | ret | stop => rfl
  | call c next ih => exact .inr (ih (step c s).1 (step c s).2)

theorem cut_bind : Cut step (p >>= f) s t ↔
      Cut step p s t ∨ ∃ a s', p.run step s = (.ok a, s') ∧ Cut step (f a) s' t := by
  induction p generalizing s with
  | ret a =>
    constructor
    · exact fun cut => .inr ⟨a, s, rfl, cut⟩
    · rintro (rfl | ⟨_, _, ⟨⟩, cut⟩)
      · exact cut_start (f a)
      · exact cut
  | stop e =>
    constructor
    · exact .inl
    · rintro (cut | ⟨_, _, ⟨⟩, -⟩)
      exact cut
  | call c next ih =>
    have rest := @ih (step c s).1 (step c s).2
    constructor
    · rintro (here | later)
      · exact .inl (.inl here)
      · exact (rest.mp later).imp .inr id
    · rintro ((here | later) | ended)
      · exact .inl here
      · exact .inr (rest.mpr (.inl later))
      · exact .inr (rest.mpr (.inr ended))

structure Survives (step : (c : ι) → σ → ρ c × σ) (inv : σ → Prop) (p : Program ρ ε α) (s : σ)
    (post : Except ε α → σ → Prop) : Prop where
  cut : ∀ t, Cut step p s t → inv t
  ends : post (p.run step s).1 (p.run step s).2

variable {inv : σ → Prop} {post post' : Except ε α → σ → Prop}

theorem survives_pure {a : α} (holds : inv s) (ends : post (.ok a) s) :
    Survives step inv (pure a : Program ρ ε α) s post :=
  ⟨fun _ same => same ▸ holds, ends⟩

theorem survives_stop {e : ε} (holds : inv s) (ends : post (.error e) s) :
    Survives step inv (stop e : Program ρ ε α) s post :=
  ⟨fun _ same => same ▸ holds, ends⟩

theorem survives_call {c : ι} {next : ρ c → Program ρ ε α} (holds : inv s)
    (rest : Survives step inv (next (step c s).1) (step c s).2 post) :
    Survives step inv (call c next) s post :=
  ⟨fun t cut => cut.elim (fun same => same ▸ holds) (rest.cut t), rest.ends⟩

theorem survives_perform {c : ι} {f : ρ c → Program ρ ε α} (holds : inv s)
    (rest : Survives step inv (f (step c s).1) (step c s).2 post) :
    Survives step inv (perform c >>= f) s post :=
  survives_call holds rest

theorem Survives.mono (survives : Survives step inv p s post)
    (weaker : ∀ r t, inv t → post r t → post' r t) : Survives step inv p s post' :=
  ⟨survives.cut, weaker _ _ (survives.cut _ (cut_run p s)) survives.ends⟩

theorem Survives.weaken {inv' : σ → Prop} (survives : Survives step inv p s post)
    (weaker : ∀ t, inv t → inv' t) : Survives step inv' p s post :=
  ⟨fun t cut => weaker t (survives.cut t cut), survives.ends⟩

theorem Survives.then {post' : Except ε β → σ → Prop} (first : Survives step inv p s post)
    (ok : ∀ a t, inv t → post (.ok a) t → Survives step inv (f a) t post')
    (failed : ∀ e t, inv t → post (.error e) t → post' (.error e) t) :
    Survives step inv (p >>= f) s post' := by
  have holds := first.cut _ (cut_run p s)
  have ends := first.ends
  refine ⟨fun t cut => ?_, ?_⟩
  · rcases cut_bind.mp cut with cut | ⟨a, s', ran, cut⟩
    · exact first.cut t cut
    · rw [ran] at holds ends
      exact (ok a s' holds ends).cut t cut
  · rw [run_bind]
    revert holds ends
    rcases p.run step s with ⟨e | a, s'⟩
    · exact fun holds ends => failed e s' holds ends
    · exact fun holds ends => (ok a s' holds ends).ends

theorem survives_ite {condition : Prop} [Decidable condition] {q : Program ρ ε α}
    (yes : condition → Survives step inv p s post) (no : ¬ condition → Survives step inv q s post) :
    Survives step inv (if condition then p else q) s post := by
  split
  · next holds => exact yes holds
  · next fails => exact no fails

theorem survives_forM {γ : Type} {body : γ → Program ρ ε PUnit} {xs : List γ} (holds : inv s)
    (each : ∀ x ∈ xs, ∀ t, inv t → Survives step inv (body x) t fun result _ => result.isOk) :
    Survives step inv (xs.forM body) s fun result _ => result.isOk := by
  induction xs generalizing s with
  | nil => exact survives_pure holds rfl
  | cons x xs ih =>
    refine (each x (List.mem_cons_self ..) s holds).then
      (fun _ t held _ => ?_) fun _ _ _ stopped => by cases stopped
    exact ih held fun y mem => each y (List.mem_cons_of_mem _ mem)

theorem Survives.catching {handler : ε → Program ρ ε' α} {post' : Except ε' α → σ → Prop}
    (first : Survives step inv p s post) (ok : ∀ a t, inv t → post (.ok a) t → post' (.ok a) t)
    (failed : ∀ e t, inv t → post (.error e) t → Survives step inv (handler e) t post') :
    Survives step inv (p.catching handler) s post' := by
  induction p generalizing s with
  | ret a => exact survives_pure (first.cut s rfl) (ok a s (first.cut s rfl) first.ends)
  | stop e => exact failed e s (first.cut s rfl) first.ends
  | call c next ih =>
    exact survives_call (first.cut s (.inl rfl))
      (ih _ ⟨fun t cut => first.cut t (.inr cut), first.ends⟩)

/-! ## Programs on two machines -/

variable {ι κ σ τ ε α : Type} {ρ : ι → Type} {ρ' : κ → Type}

def lower (carry : (c : ι) → Program ρ' ε (ρ c)) : Program ρ ε α → Program ρ' ε α
  | .ret a => .ret a
  | .stop e => .stop e
  | .call c next => carry c >>= fun answer => (next answer).lower carry

section Lowering

variable {carry : (c : ι) → Program ρ' ε (ρ c)} {step : (c : ι) → σ → ρ c × σ} {step' : (c : κ) → τ → ρ' c × τ}

theorem run_lower {view : σ → τ}
    (carried : ∀ c s, (carry c).run step' (view s) = (.ok (step c s).1, view (step c s).2))
    (p : Program ρ ε α) (s : σ) :
    (p.lower carry).run step' (view s) = ((p.run step s).1, view (p.run step s).2) := by
  induction p generalizing s with
  | ret | stop => rfl
  | call c next ih =>
    rw [lower, run_bind_of_ok (carried c s)]
    exact ih _ _

end Lowering

section Relation

variable {step : (c : ι) → σ → ρ c × σ} {step' : (c : ι) → τ → ρ c × τ} {related : σ → τ → Prop} {allowed : ι → Prop}

theorem run_related
    (alike : ∀ c s t, allowed c → related s t → (step c s).1 = (step' c t).1 ∧ related (step c s).2 (step' c t).2)
    {p : Program ρ ε α} (only : p.Only allowed) {s : σ} {t : τ} (start : related s t) :
    (p.run step s).1 = (p.run step' t).1 ∧ related (p.run step s).2 (p.run step' t).2 := by
  induction p generalizing s t with
  | ret | stop => exact ⟨rfl, start⟩
  | call c next ih =>
    obtain ⟨answer, after⟩ := alike c s t only.1 start
    have rest := ih _ (only.2 (step c s).1) after
    rwa [run, run, ← answer]

end Relation

end CincServer.Lib.Program
