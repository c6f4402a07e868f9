import Legible.Proofs.Pattern.Spelling
import Mathlib.Data.List.Induction

namespace Legible

inductive Meets (known : Known) (w : String) :
    Except CompileError (Option Placeholder × Known) → Prop
  | plain (h : ∀ b suffix, ¬ Spells w b suffix) : Meets known w (.ok (none, known))
  | again {b p : Placeholder} {suffix first : String} (spells : Spells w b suffix)
      (found : known.lookup b.name = some (first, p))
      (agrees : modifiersOf suffix ≠ [] → suffix = first) : Meets known w (.ok (some p, known))
  | conflict {b p : Placeholder} {suffix first : String} {e : CompileError}
      (spells : Spells w b suffix) (found : known.lookup b.name = some (first, p))
      (modified : modifiersOf suffix ≠ []) (differs : suffix ≠ first) : Meets known w (.error e)
  | fresh {b p : Placeholder} {suffix : String} (spells : Spells w b suffix)
      (missing : known.lookup b.name = none) (fits : ∀ m ∈ modifiersOf suffix, m ∈ b.modifiers)
      (makes : b.Makes suffix p) : Meets known w (.ok (some p, (b.name, suffix, p) :: known))
  | unknown {b : Placeholder} {suffix m : String} {e : CompileError} (spells : Spells w b suffix)
      (missing : known.lookup b.name = none) (mem : m ∈ modifiersOf suffix)
      (misfit : m ∉ b.modifiers) : Meets known w (.error e)

theorem run_placeholderOf (w : String) (known : Known) : (placeholderOf w).run known =
    match spelledPlaceholder w with
    | none => .ok (none, known)
    | some (bare, suffix) =>
      match known.lookup bare.name with
      | some (first, p) =>
        if modifiersOf suffix ≠ [] ∧ suffix ≠ first then .error (.conflictingModifiers bare.name)
        else .ok (some p, known)
      | none => ((modifiersOf suffix).foldlM (m := Except CompileError) addModifier bare).map
          fun p => (some p, (bare.name, suffix, p) :: known) := by
  rw [placeholderOf]
  cases spelledPlaceholder w with
  | none => rfl
  | some s =>
    obtain ⟨bare, suffix⟩ := s
    simp only [StateT.run_bind, StateT.run_get, pure_bind]
    cases known.lookup bare.name with
    | some v =>
      obtain ⟨first, p⟩ := v
      simp only
      split <;> rfl
    | none =>
      simp only
      cases (modifiersOf suffix).foldlM (m := Except CompileError) addModifier bare <;> rfl

theorem meets_placeholderOf (known : Known) (w : String) :
    Meets known w ((placeholderOf w).run known) := by
  rw [run_placeholderOf]
  cases hs : spelledPlaceholder w with
  | none =>
    apply Meets.plain
    intro b suffix h
    rw [spelledPlaceholder_eq_some_iff.mpr h] at hs
    cases hs
  | some s =>
    obtain ⟨b, suffix⟩ := s
    have hspells := spelledPlaceholder_eq_some_iff.mp hs
    simp only
    cases hl : known.lookup b.name with
    | some v =>
      obtain ⟨first, p⟩ := v
      simp only
      split
      · rename_i hc
        exact .conflict hspells hl hc.1 hc.2
      · rename_i hc
        refine .again hspells hl fun hm => ?_
        by_contra hne
        exact hc ⟨hm, hne⟩
    | none =>
      rcases foldlM_addModifier_cases hspells.slot_ne_text (modifiersOf suffix) with
        ⟨hall, p, hp, -⟩ | ⟨⟨m, hm, hbad⟩, e, he⟩
      · simp only [hp, Except.map]
        exact .fresh hspells hl hall hp
      · simp only [he, Except.map]
        exact .unknown hspells hl hm hbad

/-! ### Tables -/

namespace Known

def note (known : Known) (w : String) : Except CompileError Known :=
  ((placeholderOf w).run known).map (·.2)

def noteAll (known : Known) (ws : List String) : Except CompileError Known :=
  ws.foldlM note known

def Within (known known' : Known) : Prop :=
  ∀ name v, known.lookup name = some v → known'.lookup name = some v

theorem Within.trans {k l m : Known} (h : k.Within l) (h' : l.Within m) : k.Within m :=
  fun name v hv => h' name v (h name v hv)

theorem within_note {known known' : Known} {w : String} (h : known.note w = .ok known') :
    known.Within known' := by
  have hmeets := meets_placeholderOf known w
  rw [note] at h
  generalize (placeholderOf w).run known = r at h hmeets
  cases hmeets with
  | plain _ | again _ _ _ =>
    obtain rfl : known = known' := Except.ok.inj h
    exact fun _ _ hv => hv
  | conflict _ _ _ _ | unknown _ _ _ _ => cases h
  | @fresh b p suffix _ hmissing _ _ =>
    obtain rfl : (b.name, suffix, p) :: known = known' := Except.ok.inj h
    intro name v hv
    have hne : name ≠ b.name := by
      rintro rfl
      rw [hmissing] at hv
      cases hv
    rwa [List.lookup_cons, beq_false_of_ne hne]

theorem noteAll_append (known : Known) (ws vs : List String) :
    known.noteAll (ws ++ vs) = known.noteAll ws >>= fun k => k.noteAll vs :=
  List.foldlM_append

theorem within_noteAll {known known' : Known} {ws : List String}
    (h : known.noteAll ws = .ok known') : known.Within known' := by
  induction ws generalizing known with
  | nil =>
    obtain rfl : known = known' := Except.ok.inj h
    exact fun _ _ hv => hv
  | cons w ws ih =>
    rw [noteAll, List.foldlM_cons] at h
    obtain ⟨k, hk, h⟩ := exists_of_bind_eq_ok h
    exact (within_note hk).trans (ih h)

end Known

/-! ### First occurrences and faults -/

/-- The first occurrence of a placeholder, with its suffix, and the names behind it. -/
def First (ws : List String) (b : Placeholder) (suffix : String) (after : List String) : Prop :=
  ∃ before w, ws = before ++ w :: after ∧ Spells w b suffix ∧ ∀ v ∈ before, ∀ s, ¬ Spells v b s

/-- The first occurrence has a modifier that is not known for its kind, or a later one has modifiers
and another suffix. -/
def Faulty (ws : List String) : Prop :=
  ∃ b first after, First ws b first after ∧
    ((∃ m ∈ modifiersOf first, m ∉ b.modifiers) ∨
      ∃ w ∈ after, ∃ suffix, Spells w b suffix ∧ modifiersOf suffix ≠ [] ∧ suffix ≠ first)

section

variable {ws after : List String} {x suffix s : String} {b : Placeholder}

theorem Spells.unique {b' : Placeholder} (h : Spells x b s) (h' : Spells x b' suffix) :
    b = b' ∧ s = suffix :=
  Prod.mk.inj (Option.some.inj ((spelledPlaceholder_eq_some_iff.mpr h).symm.trans
    (spelledPlaceholder_eq_some_iff.mpr h')))

theorem First.concat (h : First ws b s after) (x : String) :
    First (ws ++ [x]) b s (after ++ [x]) := by
  obtain ⟨before, w, rfl, hw⟩ := h
  exact ⟨before, w, by simp, hw⟩

theorem first_concat (h : Spells x b s) (hws : ∀ w ∈ ws, ∀ s, ¬ Spells w b s) :
    First (ws ++ [x]) b s [] :=
  ⟨ws, x, rfl, h, hws⟩

theorem First.concat_cases (h : First (ws ++ [x]) b s after) :
    (∃ rest, after = rest ++ [x] ∧ First ws b s rest) ∨
      after = [] ∧ Spells x b s ∧ ∀ w ∈ ws, ∀ s, ¬ Spells w b s := by
  obtain ⟨before, w, he, hw, hbefore⟩ := h
  rcases List.eq_nil_or_concat after with rfl | ⟨rest, y, rfl⟩
  · obtain ⟨rfl, rfl⟩ := List.append_singleton_inj.mp he
    exact Or.inr ⟨rfl, hw, hbefore⟩
  · rw [List.concat_eq_append, ← List.cons_append, ← List.append_assoc] at he
    obtain ⟨rfl, rfl⟩ := List.append_singleton_inj.mp he
    exact Or.inl ⟨rest, List.concat_eq_append, before, w, rfl, hw, hbefore⟩

theorem First.exists_mem (h : First ws b s after) : ∃ w ∈ ws, Spells w b s := by
  obtain ⟨before, w, rfl, hw, -⟩ := h
  exact ⟨w, by simp, hw⟩

theorem First.unique {after' : List String} (h : First ws b s after)
    (h' : First ws b suffix after') : s = suffix := by
  obtain ⟨before, w, rfl, hw, hbefore⟩ := h
  obtain ⟨before', w', he, hw', hbefore'⟩ := h'
  rcases List.append_eq_append_iff.mp he with ⟨l, rfl, hl⟩ | ⟨l, rfl, hl⟩
  · cases l with
    | nil =>
      obtain ⟨rfl, -⟩ := List.cons.inj hl
      exact (hw.unique hw').2
    | cons v l =>
      obtain ⟨rfl, -⟩ := List.cons.inj hl
      exact absurd hw (hbefore' w (by simp) s)
  · cases l with
    | nil =>
      obtain ⟨rfl, -⟩ := List.cons.inj hl
      exact (hw.unique hw').2
    | cons v l =>
      obtain ⟨rfl, -⟩ := List.cons.inj hl
      exact absurd hw' (hbefore w' (by simp) suffix)

theorem Faulty.concat (h : Faulty ws) (x : String) : Faulty (ws ++ [x]) := by
  obtain ⟨b, first, after, hfirst, hfault⟩ := h
  refine ⟨b, first, after ++ [x], hfirst.concat x, hfault.imp_right ?_⟩
  rintro ⟨w, hw, h⟩
  exact ⟨w, List.mem_append_left _ hw, h⟩

theorem Faulty.concat_cases (h : Faulty (ws ++ [x])) : Faulty ws ∨
    (∃ b first after suffix, First ws b first after ∧ Spells x b suffix ∧
      modifiersOf suffix ≠ [] ∧ suffix ≠ first) ∨
    ∃ b suffix, Spells x b suffix ∧ (∀ w ∈ ws, ∀ s, ¬ Spells w b s) ∧
      ∃ m ∈ modifiersOf suffix, m ∉ b.modifiers := by
  obtain ⟨b, first, after, hfirst, hfault⟩ := h
  rcases hfirst.concat_cases with ⟨rest, rfl, hrest⟩ | ⟨rfl, hx, hws⟩
  · rcases hfault with hm | ⟨w, hw, suffix, hspells, hdiffers⟩
    · exact Or.inl ⟨b, first, rest, hrest, Or.inl hm⟩
    · rcases List.mem_append.mp hw with hw | hw
      · exact Or.inl ⟨b, first, rest, hrest, Or.inr ⟨w, hw, suffix, hspells, hdiffers⟩⟩
      · obtain rfl := List.mem_singleton.mp hw
        exact Or.inr (Or.inl ⟨b, first, rest, suffix, hrest, hspells, hdiffers⟩)
  · rcases hfault with hm | ⟨w, hw, -⟩
    · exact Or.inr (Or.inr ⟨b, first, hx, hws, hm⟩)
    · cases hw

end

structure Tabulates (ws : List String) (known : Known) : Prop where
  sound : ∀ name first p, known.lookup name = some (first, p) →
    ∃ b after, b.name = name ∧ First ws b first after ∧ b.Makes first p
  complete : ∀ w ∈ ws, ∀ b s, Spells w b s → ∃ v, known.lookup b.name = some v

section

variable {ws : List String} {known : Known} {x suffix first : String} {b p : Placeholder}

theorem Tabulates.first_of_lookup (h : Tabulates ws known) (hx : Spells x b suffix)
    (hl : known.lookup b.name = some (first, p)) :
    (∃ after, First ws b first after) ∧ b.Variant p := by
  obtain ⟨b', after, hname, hfirst, hmakes⟩ := h.sound _ first p hl
  obtain ⟨w, -, hw⟩ := hfirst.exists_mem
  obtain rfl := hw.eq_of_name hx hname
  exact ⟨⟨after, hfirst⟩, hmakes.variant hx.slot_ne_text⟩

theorem Tabulates.not_spells (h : Tabulates ws known) (hl : known.lookup b.name = none) :
    ∀ w ∈ ws, ∀ s, ¬ Spells w b s := by
  intro w hw s hs
  obtain ⟨v, hv⟩ := h.complete w hw b s hs
  rw [hl] at hv
  cases hv

theorem Tabulates.concat (h : Tabulates ws known)
    (hx : ∀ b s, Spells x b s → ∃ v, known.lookup b.name = some v) :
    Tabulates (ws ++ [x]) known := by
  constructor
  · intro name first p hl
    obtain ⟨b, after, hname, hfirst, hmakes⟩ := h.sound name first p hl
    exact ⟨b, _, hname, hfirst.concat x, hmakes⟩
  · intro w hw b s hs
    rcases List.mem_append.mp hw with hw | hw
    · exact h.complete w hw b s hs
    · rw [List.mem_singleton.mp hw] at hs
      exact hx b s hs

theorem Tabulates.cons (h : Tabulates ws known) (hx : Spells x b suffix)
    (hl : known.lookup b.name = none) (hp : b.Makes suffix p) :
    Tabulates (ws ++ [x]) ((b.name, suffix, p) :: known) := by
  constructor
  · intro name first q hq
    rw [List.lookup_cons] at hq
    split at hq
    · rename_i hname
      obtain ⟨rfl, rfl⟩ := Prod.mk.inj (Option.some.inj hq)
      exact ⟨b, [], (beq_iff_eq.mp hname).symm, first_concat hx (h.not_spells hl), hp⟩
    · obtain ⟨b', after, hname, hfirst, hmakes⟩ := h.sound name first q hq
      exact ⟨b', _, hname, hfirst.concat x, hmakes⟩
  · intro w hw b' s hs
    rw [List.lookup_cons]
    split
    · exact ⟨_, rfl⟩
    · rename_i hname
      rcases List.mem_append.mp hw with hw | hw
      · exact h.complete w hw b' s hs
      · rw [List.mem_singleton.mp hw] at hs
        obtain ⟨rfl, -⟩ := hs.unique hx
        simp at hname

end

theorem noteAll_cases (ws : List String) :
    (∃ known, Known.noteAll [] ws = .ok known ∧ Tabulates ws known ∧ ¬ Faulty ws) ∨
      (∃ e, Known.noteAll [] ws = .error e) ∧ Faulty ws := by
  induction ws using List.reverseRecOn with
  | nil =>
    refine Or.inl ⟨[], rfl, ⟨nofun, by simp⟩, ?_⟩
    rintro ⟨b, first, after, ⟨before, w, he, -⟩, -⟩
    simp at he
  | append_singleton ws x ih =>
    rw [Known.noteAll_append]
    rcases ih with ⟨known, hknown, htable, hsound⟩ | ⟨⟨e, he⟩, hfaulty⟩
    · have hstep : ((Known.noteAll [] ws) >>= fun k => k.noteAll [x]) = known.note x := by
        rw [hknown]
        exact bind_pure (known.note x)
      rw [hstep]
      have hmeets := meets_placeholderOf known x
      rw [Known.note]
      generalize (placeholderOf x).run known = r at hmeets
      cases hmeets with
      | plain hplain =>
        refine Or.inl ⟨known, rfl, htable.concat fun b s hs => absurd hs (hplain b s), ?_⟩
        intro h
        rcases h.concat_cases with h | ⟨b, first, after, suffix, -, hx, -⟩ | ⟨b, suffix, hx, -⟩
        · exact hsound h
        · exact hplain b suffix hx
        · exact hplain b suffix hx
      | @again b p suffix first hx hl hagrees =>
        obtain ⟨⟨after, hfirst⟩, -⟩ := htable.first_of_lookup hx hl
        refine Or.inl ⟨known, rfl, htable.concat fun b' s hs => ?_, ?_⟩
        · obtain ⟨rfl, -⟩ := hs.unique hx
          exact ⟨_, hl⟩
        · intro h
          rcases h.concat_cases with h | ⟨b', first', after', suffix', hfirst', hx', hm, hne⟩ |
            ⟨b', suffix', hx', hnone, -⟩
          · exact hsound h
          · obtain ⟨rfl, rfl⟩ := hx.unique hx'
            obtain rfl := hfirst.unique hfirst'
            exact hne (hagrees hm)
          · obtain ⟨rfl, -⟩ := hx.unique hx'
            obtain ⟨w, hw, hspells⟩ := hfirst.exists_mem
            exact hnone w hw _ hspells
      | @conflict b p suffix first e hx hl hm hne =>
        obtain ⟨⟨after, hfirst⟩, -⟩ := htable.first_of_lookup hx hl
        refine Or.inr ⟨⟨e, rfl⟩, b, first, after ++ [x], hfirst.concat x, Or.inr ?_⟩
        exact ⟨x, by simp, suffix, hx, hm, hne⟩
      | @fresh b p suffix hx hl hfits hmakes =>
        refine Or.inl ⟨_, rfl, htable.cons hx hl hmakes, ?_⟩
        intro h
        rcases h.concat_cases with h | ⟨b', first', after', suffix', hfirst', hx', -⟩ |
          ⟨b', suffix', hx', -, m, hm, hmisfit⟩
        · exact hsound h
        · obtain ⟨rfl, -⟩ := hx.unique hx'
          obtain ⟨w, hw, hspells⟩ := hfirst'.exists_mem
          exact htable.not_spells hl w hw _ hspells
        · obtain ⟨rfl, rfl⟩ := hx.unique hx'
          exact hmisfit (hfits m hm)
      | @unknown b suffix m e hx hl hm hmisfit =>
        refine Or.inr ⟨⟨e, rfl⟩, b, suffix, [], first_concat hx (htable.not_spells hl), Or.inl ?_⟩
        exact ⟨m, hm, hmisfit⟩
    · exact Or.inr ⟨⟨e, by rw [he]; rfl⟩, hfaulty.concat x⟩

end Legible
