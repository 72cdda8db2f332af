/-!
# Regular expressions
-/

namespace CincServer.Lib

inductive Regex (α : Type)
  | empty
  | eps
  | sat (p : α → Bool)
  | seq (first second : Regex α)
  | alt (left right : Regex α)
  | star (r : Regex α)

namespace Regex

variable {α : Type}

def plus (r : Regex α) : Regex α := .seq r (.star r)

def opt (r : Regex α) : Regex α := .alt r .eps

def seqs : List (Regex α) → Regex α
  | [] => .eps
  | r :: rest => .seq r (seqs rest)

def alts : List (Regex α) → Regex α
  | [] => .empty
  | r :: rest => .alt r (alts rest)

def nullable : Regex α → Bool
  | empty => false
  | eps => true
  | sat _ => false
  | seq r s => r.nullable && s.nullable
  | alt r s => r.nullable || s.nullable
  | star _ => true

def deriv (c : α) : Regex α → Regex α
  | empty => .empty
  | eps => .empty
  | sat p => if p c then .eps else .empty
  | seq r s => if r.nullable then .alt (.seq (r.deriv c) s) (s.deriv c) else .seq (r.deriv c) s
  | alt r s => .alt (r.deriv c) (s.deriv c)
  | star r => .seq (r.deriv c) (.star r)

def accepts (r : Regex α) : List α → Bool
  | [] => r.nullable
  | c :: rest => (r.deriv c).accepts rest

def EachClass (P : (α → Bool) → Prop) : Regex α → Prop
  | empty => True
  | eps => True
  | sat q => P q
  | seq r s => r.EachClass P ∧ s.EachClass P
  | alt r s => r.EachClass P ∧ s.EachClass P
  | star r => r.EachClass P

theorem EachClass.mono {P Q : (α → Bool) → Prop} (weaker : ∀ q, P q → Q q) {r : Regex α}
    (each : r.EachClass P) :
    r.EachClass Q := by
  induction r with
  | empty | eps => trivial
  | sat q => exact weaker q each
  | seq r s ihr ihs | alt r s ihr ihs => exact ⟨ihr each.1, ihs each.2⟩
  | star r ih => exact ih each

def Over (p : α → Bool) (r : Regex α) : Prop := r.EachClass fun q => ∀ c, q c → p c

def Dead : Regex α → Prop
  | empty => True
  | seq r _ => r.Dead
  | alt r s => r.Dead ∧ s.Dead
  | _ => False

theorem Dead.not_nullable {r : Regex α} (dead : r.Dead) : r.nullable = false := by
  induction r with
  | empty => rfl
  | seq r s ihr => rw [nullable, ihr dead, Bool.false_and]
  | alt r s ihr ihs => rw [nullable, ihr dead.1, ihs dead.2, Bool.or_false]
  | eps | sat | star => exact dead.elim

theorem Dead.deriv {r : Regex α} (dead : r.Dead) (c : α) : (r.deriv c).Dead := by
  induction r with
  | empty => trivial
  | seq r s ihr =>
    have notNull : r.nullable = false := Dead.not_nullable dead
    rw [Regex.deriv, notNull, if_neg Bool.false_ne_true]
    exact ihr dead
  | alt r s ihr ihs => exact ⟨ihr dead.1, ihs dead.2⟩
  | eps | sat | star => exact dead.elim

theorem Dead.not_accepts {r : Regex α} (dead : r.Dead) (input : List α) :
    r.accepts input = false := by
  induction input generalizing r with
  | nil => exact dead.not_nullable
  | cons c rest ih => exact ih (dead.deriv c)

variable {p : α → Bool} {r : Regex α}

theorem Over.deriv (covered : r.Over p) (c : α) : (r.deriv c).Over p := by
  induction r with
  | empty | eps => trivial
  | sat q =>
    rw [Regex.deriv]
    split <;> trivial
  | seq r s ihr ihs =>
    rw [Regex.deriv]
    split
    · exact ⟨⟨ihr covered.1, covered.2⟩, ihs covered.2⟩
    · exact ⟨ihr covered.1, covered.2⟩
  | alt r s ihr ihs => exact ⟨ihr covered.1, ihs covered.2⟩
  | star r ih => exact ⟨ih covered, covered⟩

theorem Over.dead_deriv (covered : r.Over p) {c : α} (outside : p c = false) :
    (r.deriv c).Dead := by
  induction r with
  | empty | eps => trivial
  | sat q =>
    rw [Regex.deriv]
    split
    · next holds =>
      rw [covered c holds] at outside
      cases outside
    · trivial
  | seq r s ihr ihs =>
    rw [Regex.deriv]
    split
    · exact ⟨ihr covered.1, ihs covered.2⟩
    · exact ihr covered.1
  | alt r s ihr ihs => exact ⟨ihr covered.1, ihs covered.2⟩
  | star r ih => exact ih covered

theorem Over.all (covered : r.Over p) {input : List α} (accepted : r.accepts input) :
    input.all p := by
  induction input generalizing r with
  | nil => rfl
  | cons c rest ih =>
    rw [List.all_cons, Bool.and_eq_true]
    refine ⟨?_, ih (covered.deriv c) accepted⟩
    cases inside : p c with
    | true => rfl
    | false =>
      rw [accepts, (covered.dead_deriv inside).not_accepts] at accepted
      cases accepted

def Matches : Regex α → List α → Prop
  | empty, _ => False
  | eps, w => w = []
  | sat p, w => ∃ c, p c ∧ w = [c]
  | seq r s, w => ∃ u v, w = u ++ v ∧ r.Matches u ∧ s.Matches v
  | alt r s, w => r.Matches w ∨ s.Matches w
  | star r, w => ∃ parts : List (List α), w = parts.flatten ∧ ∀ part ∈ parts, r.Matches part

theorem nullable_iff : r.nullable ↔ r.Matches [] := by
  induction r with
  | empty => exact ⟨nofun, nofun⟩
  | eps => exact ⟨fun _ => rfl, fun _ => rfl⟩
  | sat p => exact ⟨nofun, nofun⟩
  | seq r s ihr ihs =>
    rw [nullable, Bool.and_eq_true, ihr, ihs]
    constructor
    · exact fun both => ⟨[], [], rfl, both⟩
    · rintro ⟨u, v, whole, first, second⟩
      obtain ⟨rfl, rfl⟩ := List.append_eq_nil_iff.mp whole.symm
      exact ⟨first, second⟩
  | alt r s ihr ihs => rw [nullable, Bool.or_eq_true, ihr, ihs, Matches]
  | star r => exact ⟨fun _ => ⟨[], rfl, nofun⟩, fun _ => rfl⟩

variable {s : Regex α} {c : α} {w : List α}

theorem matches_seq_cons : (seq r s).Matches (c :: w) ↔
      (∃ u v, w = u ++ v ∧ r.Matches (c :: u) ∧ s.Matches v) ∨ r.Matches [] ∧ s.Matches (c :: w) := by
  constructor
  · rintro ⟨u, v, whole, first, second⟩
    rcases List.cons_eq_append_iff.mp whole with ⟨rfl, rfl⟩ | ⟨u, rfl, rfl⟩
    · exact .inr ⟨first, second⟩
    · exact .inl ⟨u, v, rfl, first, second⟩
  · rintro (⟨u, v, rfl, first, second⟩ | ⟨first, second⟩)
    · exact ⟨c :: u, v, rfl, first, second⟩
    · exact ⟨[], c :: w, rfl, first, second⟩

theorem matches_star_cons :
    (star r).Matches (c :: w) ↔ ∃ u v, w = u ++ v ∧ r.Matches (c :: u) ∧ (star r).Matches v := by
  constructor
  · rintro ⟨parts, whole, all⟩
    induction parts with
    | nil => cases whole
    | cons part parts ih =>
      obtain ⟨first, rest⟩ := List.forall_mem_cons.mp all
      rw [List.flatten_cons] at whole
      rcases List.cons_eq_append_iff.mp whole with ⟨rfl, later⟩ | ⟨u, rfl, rfl⟩
      · exact ih later.symm rest
      · exact ⟨u, _, rfl, first, parts, rfl, rest⟩
  · rintro ⟨u, _, rfl, first, parts, rfl, rest⟩
    exact ⟨(c :: u) :: parts, rfl, List.forall_mem_cons.mpr ⟨first, rest⟩⟩

theorem deriv_iff : (r.deriv c).Matches w ↔ r.Matches (c :: w) := by
  induction r generalizing w with
  | empty => exact Iff.rfl
  | eps => exact ⟨nofun, nofun⟩
  | sat p =>
    rw [deriv]
    split
    · next holds =>
      constructor
      · rintro rfl
        exact ⟨c, holds, rfl⟩
      · rintro ⟨_, -, whole⟩
        exact (List.cons.inj whole).2
    · next fails =>
      refine ⟨nofun, ?_⟩
      rintro ⟨d, holds, whole⟩
      exact fails ((List.cons.inj whole).1 ▸ holds)
  | seq r s ihr ihs =>
    rw [matches_seq_cons, ← nullable_iff]
    simp only [← ihr, ← ihs]
    rw [deriv]
    split
    · next null => simp only [Matches, null, true_and]
    · next notNull => simp only [Matches, notNull, Bool.false_eq_true, false_and, or_false]
  | alt r s ihr ihs => simp only [deriv, Matches, ihr, ihs]
  | star r ih =>
    rw [matches_star_cons]
    simp only [← ih]
    rfl

theorem accepts_iff : r.accepts w ↔ r.Matches w := by
  induction w generalizing r with
  | nil => exact nullable_iff
  | cons c rest ih => rw [accepts, ih, deriv_iff]

def Closed (f : α → α) (r : Regex α) : Prop := r.EachClass fun q => ∀ c, q c → q (f c)

theorem Closed.matches {f : α → α} (closed : r.Closed f)
    (matched : r.Matches w) : r.Matches (w.map f) := by
  induction r generalizing w with
  | empty => exact matched
  | eps =>
    obtain rfl : w = [] := matched
    rfl
  | sat q =>
    obtain ⟨c, holds, rfl⟩ := matched
    exact ⟨f c, closed c holds, rfl⟩
  | seq r s ihr ihs =>
    obtain ⟨u, v, rfl, first, second⟩ := matched
    exact ⟨u.map f, v.map f, List.map_append, ihr closed.1 first, ihs closed.2 second⟩
  | alt r s ihr ihs => exact matched.imp (ihr closed.1) (ihs closed.2)
  | star r ih =>
    obtain ⟨parts, rfl, all⟩ := matched
    refine ⟨parts.map (·.map f), List.map_flatten, fun image mem => ?_⟩
    obtain ⟨part, inParts, rfl⟩ := List.mem_map.mp mem
    exact ih closed (all part inParts)

end Regex

end CincServer.Lib
