import Legible.Command
import Legible.Proofs.Results

namespace Legible.Command

namespace Run

variable {α β : Type} {p : Progress}

theorem result_bind (x : Run α) (f : α → Run β) (p : Progress) : (x >>= f).result p =
    match x.result p with
    | (.ok a, q) => (f a).result q
    | (.error e, q) => (.error e, q) := by
  simp only [result, ExceptT.run_bind, StateT.run_bind]
  generalize (ExceptT.run x).run p = r
  obtain ⟨_ | _, q⟩ := r <;> rfl

theorem result_tryCatch (x : Run α) (f : Failure → Run α) (p : Progress) :
    (tryCatch x f : Run α).result p =
      match x.result p with
      | (.ok a, q) => (.ok a, q)
      | (.error e, q) => (f e).result q := by
  change (ExceptT.run (ExceptT.tryCatch x f)).run p = _
  simp only [result, ExceptT.tryCatch, ExceptT.run_mk]
  change ((ExceptT.run x >>= _ : StateM Progress _)).run p = _
  rw [StateT.run_bind]
  generalize (ExceptT.run x).run p = r
  obtain ⟨_ | _, q⟩ := r <;> rfl

theorem result_mapM_cons (f : α → Run β) (x : α) (xs : List α) (p : Progress) :
    ((x :: xs).mapM f).result p =
      match (f x).result p with
      | (.ok b, q) =>
        match (xs.mapM f).result q with
        | (.ok bs, r) => (.ok (b :: bs), r)
        | (.error e, r) => (.error e, r)
      | (.error e, q) => (.error e, q) := by
  rw [List.mapM_cons, result_bind]
  obtain ⟨_ | b, q⟩ := (f x).result p
  · rfl
  · simp only [result_bind]
    obtain ⟨_ | bs, r⟩ := (xs.mapM f).result q <;> rfl

theorem exists_of_result_bind {x : Run α} {f : α → Run β} {b : β} {r : Progress}
    (h : (x >>= f).result p = (.ok b, r)) :
    ∃ a q, x.result p = (.ok a, q) ∧ (f a).result q = (.ok b, r) := by
  rw [result_bind] at h
  rcases hx : x.result p with ⟨_ | a, q⟩ <;> rw [hx] at h
  · cases h
  · exact ⟨a, q, rfl, h⟩

theorem eq_error_or_of_result_bind {x : Run α} {f : α → Run β} {e : Failure} {r : Progress}
    (h : (x >>= f).result p = (.error e, r)) : x.result p = (.error e, r) ∨
      ∃ a q, x.result p = (.ok a, q) ∧ (f a).result q = (.error e, r) := by
  rw [result_bind] at h
  rcases hx : x.result p with ⟨e' | a, q⟩ <;> rw [hx] at h
  · obtain ⟨he, rfl⟩ := Prod.mk.inj h
    exact Or.inl (Prod.ext (congrArg Except.error (Except.error.inj he)) rfl)
  · exact Or.inr ⟨a, q, rfl, h⟩

@[simp]
theorem result_pure (a : α) (p : Progress) : (pure a : Run α).result p = (.ok a, p) := rfl

@[simp]
theorem result_of (r : Except Failure α) (p : Progress) : (of r).result p = (r, p) := rfl

@[simp]
theorem result_get (p : Progress) : (get : Run Progress).result p = (.ok p, p) := rfl

@[simp]
theorem result_modify (f : Progress → Progress) (p : Progress) :
    (modify f : Run Unit).result p = (.ok (), f p) := rfl

theorem result_get_bind (f : Progress → Run β) (p : Progress) :
    (get >>= f).result p = (f p).result p :=
  result_bind ..

theorem result_modify_bind (g : Progress → Progress) (f : Unit → Run β) (p : Progress) :
    (modify g >>= f).result p = (f ()).result (g p) :=
  result_bind ..

theorem exists_of_result_of_bind {r : Except Failure α} {f : α → Run β} {b : β} {q : Progress}
    (h : (of r >>= f).result p = (.ok b, q)) : ∃ a, r = .ok a ∧ (f a).result p = (.ok b, q) := by
  obtain ⟨a, p', ha, h⟩ := exists_of_result_bind h
  obtain ⟨rfl, rfl⟩ := Prod.mk.inj ha
  exact ⟨a, rfl, h⟩

theorem eq_error_or_of_result_of_bind {r : Except Failure α} {f : α → Run β} {e : Failure}
    {q : Progress} (h : (of r >>= f).result p = (.error e, q)) : (r = .error e ∧ p = q) ∨
      ∃ a, r = .ok a ∧ (f a).result p = (.error e, q) := by
  rcases eq_error_or_of_result_bind h with h | ⟨a, p', ha, h⟩
  · exact Or.inl (Prod.mk.inj h)
  · obtain ⟨rfl, rfl⟩ := Prod.mk.inj ha
    exact Or.inr ⟨a, rfl, h⟩

end Run

open Run

variable {s : Surroundings} {p : Progress}

theorem result_say (s : Surroundings) (text : String) (p : Progress) : (say s text).result p =
    match s.told text with
    | .ok shown => (.ok (), { p with lines := p.lines ++ [.text shown] })
    | .error e => (.error e, p) := by
  rw [say, result_bind, result_of]
  cases s.told text <;> rfl

def Surroundings.Tells (s : Surroundings) (text : String) : Prop :=
  ∃ shown, s.tell text = .ok shown

theorem told_eq_ok_iff {text shown : String} : s.told text = .ok shown ↔ s.tell text = .ok shown := by
  rw [Surroundings.told]
  cases s.tell text <;> simp

theorem result_say_of_tells {text : String} (h : s.Tells text) :
    ∃ lines, (say s text).result p = (.ok (), { p with lines }) := by
  obtain ⟨shown, hshown⟩ := h
  rw [result_say, told_eq_ok_iff.mpr hshown]
  exact ⟨_, rfl⟩

theorem result_sayTable (s : Surroundings) (title : String) (header : List String)
    (rows : List (List String × List String)) (p : Progress) :
    (sayTable s title header rows).result p =
      match rows.mapM s.toldRow with
      | .ok rows =>
        (.ok (), { p with lines := p.lines ++ .text title :: .row header :: rows.map .row })
      | .error e => (.error e, p) := by
  rw [sayTable, result_bind, result_of]
  cases rows.mapM s.toldRow <;> rfl

theorem toldRow_eq_iff {row : List String × List String} :
    s.toldRow row = .ok (row.1 ++ row.2) ↔ ∀ cell ∈ row.1, s.tell cell = .ok cell := by
  have hcells : row.1.mapM s.told = .ok row.1 ↔ ∀ cell ∈ row.1, s.tell cell = .ok cell := by
    have h := mapM_eq_ok_iff (f := s.told) (g := id) (l := row.1)
    simpa only [List.map_id, id_eq, told_eq_ok_iff] using h
  rw [← hcells, Surroundings.toldRow]
  cases row.1.mapM s.told with
  | error e => exact iff_of_false nofun nofun
  | ok cells =>
    change Except.ok (cells ++ row.2) = _ ↔ _
    simp

end Legible.Command
