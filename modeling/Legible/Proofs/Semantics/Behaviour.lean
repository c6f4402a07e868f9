import Mathlib.Logic.Basic

namespace Legible

inductive Ending (ν : Type) where
  | normal
  | returned (value : ν)
  | thrown (value : ν)

abbrev Action (σ ν α : Type) := EStateM ν σ α

abbrev Behaviour (σ ν : Type) := σ → Ending ν → σ → Prop

namespace Behaviour

variable {σ ν α β : Type}

def skip : Behaviour σ ν := fun s e s' =>
  e = .normal ∧ s' = s

def returns (v : ν) : Behaviour σ ν := fun s e s' =>
  e = .returned v ∧ s' = s

def andThen (p q : Behaviour σ ν) : Behaviour σ ν := fun s e s' =>
  (∃ s₁, p s .normal s₁ ∧ q s₁ e s') ∨ (e ≠ .normal ∧ p s e s')

def after (a : Action σ ν α) (k : α → Behaviour σ ν) : Behaviour σ ν := fun s e s' =>
  match a s with
  | .ok v s₁ => k v s₁ e s'
  | .error v s₁ => e = .thrown v ∧ s' = s₁

def effect (a : Action σ ν α) : Behaviour σ ν :=
  after a fun _ => skip

def branch (test : Action σ ν Bool) (p q : Behaviour σ ν) : Behaviour σ ν :=
  after test fun b => if b then p else q

def sequence (ps : List (Behaviour σ ν)) : Behaviour σ ν :=
  ps.foldr andThen skip

inductive Loop (test : Action σ ν Bool) (body : Behaviour σ ν) : Behaviour σ ν
  | done {s s' : σ} : test s = .ok false s' → Loop test body s .normal s'
  | throws {s s' : σ} {v : ν} : test s = .error v s' → Loop test body s (.thrown v) s'
  | breaks {s s₁ s' : σ} {e : Ending ν} : test s = .ok true s₁ → e ≠ .normal → body s₁ e s' →
      Loop test body s e s'
  | again {s s₁ s₂ s' : σ} {e : Ending ν} : test s = .ok true s₁ → body s₁ .normal s₂ →
      Loop test body s₂ e s' → Loop test body s e s'

section

variable (p q r : Behaviour σ ν)

theorem skip_andThen : andThen skip p = p := by
  funext s e s'
  apply propext
  constructor
  · rintro (⟨_, ⟨-, rfl⟩, h⟩ | ⟨he, hn, -⟩)
    · exact h
    · exact absurd hn he
  · intro h
    exact Or.inl ⟨s, ⟨rfl, rfl⟩, h⟩

theorem andThen_skip : andThen p skip = p := by
  funext s e s'
  apply propext
  constructor
  · rintro (⟨_, h, rfl, rfl⟩ | ⟨-, h⟩)
    · exact h
    · exact h
  · intro h
    by_cases he : e = .normal
    · subst he
      exact Or.inl ⟨s', h, rfl, rfl⟩
    · exact Or.inr ⟨he, h⟩

theorem andThen_assoc : andThen (andThen p q) r = andThen p (andThen q r) := by
  funext s e s'
  apply propext
  constructor
  · rintro (⟨s₂, ⟨s₁, hp, hq⟩ | ⟨hn, -⟩, hr⟩ | ⟨he, ⟨s₁, hp, hq⟩ | ⟨-, hp⟩⟩)
    · exact Or.inl ⟨s₁, hp, Or.inl ⟨s₂, hq, hr⟩⟩
    · exact absurd rfl hn
    · exact Or.inl ⟨s₁, hp, Or.inr ⟨he, hq⟩⟩
    · exact Or.inr ⟨he, hp⟩
  · rintro (⟨s₁, hp, ⟨s₂, hq, hr⟩ | ⟨he, hq⟩⟩ | ⟨he, hp⟩)
    · exact Or.inl ⟨s₂, Or.inl ⟨s₁, hp, hq⟩, hr⟩
    · exact Or.inr ⟨he, Or.inl ⟨s₁, hp, hq⟩⟩
    · exact Or.inr ⟨he, Or.inr ⟨he, hp⟩⟩

end

theorem after_bind (a : Action σ ν α) (f : α → Action σ ν β) (k : β → Behaviour σ ν) :
    after (a >>= f) k = after a fun v => after (f v) k := by
  funext s e s'
  simp only [after, bind, EStateM.bind]
  cases a s <;> rfl

theorem after_map (a : Action σ ν α) (f : α → β) (k : β → Behaviour σ ν) :
    after (f <$> a) k = after a fun v => k (f v) := by
  rw [← bind_pure_comp, after_bind]
  rfl

theorem after_andThen (a : Action σ ν α) (k : α → Behaviour σ ν) (p : Behaviour σ ν) :
    andThen (after a k) p = after a fun v => andThen (k v) p := by
  funext s e s'
  simp only [after, andThen]
  cases a s with
  | ok v s₁ => rfl
  | error v s₁ =>
    apply propext
    constructor
    · rintro (⟨_, ⟨hn, -⟩, -⟩ | ⟨-, h⟩)
      · cases hn
      · exact h
    · rintro ⟨rfl, rfl⟩
      exact Or.inr ⟨nofun, rfl, rfl⟩

theorem effect_andThen (a : Action σ ν α) (p : Behaviour σ ν) :
    andThen (effect a) p = after a fun _ => p := by
  rw [effect, after_andThen]
  simp only [skip_andThen]

theorem branch_not (a : Action σ ν Bool) (p q : Behaviour σ ν) :
    branch ((!·) <$> a) p q = branch a q p := by
  rw [branch, after_map, branch]
  congr 1
  funext b
  cases b <;> rfl

theorem sequence_nil : sequence ([] : List (Behaviour σ ν)) = skip :=
  rfl

theorem sequence_cons (p : Behaviour σ ν) (ps : List (Behaviour σ ν)) :
    sequence (p :: ps) = andThen p (sequence ps) :=
  rfl

theorem sequence_singleton (p : Behaviour σ ν) : sequence [p] = p :=
  andThen_skip p

theorem sequence_append (ps qs : List (Behaviour σ ν)) :
    sequence (ps ++ qs) = andThen (sequence ps) (sequence qs) := by
  induction ps with
  | nil => rw [List.nil_append, sequence_nil, skip_andThen]
  | cons p ps ih => rw [List.cons_append, sequence_cons, ih, sequence_cons, andThen_assoc]

theorem sequence_flatMap (f : α → List (Behaviour σ ν)) (as : List α) :
    sequence (as.flatMap f) = sequence (as.map fun a => sequence (f a)) := by
  induction as with
  | nil => rfl
  | cons a as ih => rw [List.flatMap_cons, sequence_append, ih, List.map_cons, sequence_cons]

end Behaviour

end Legible
