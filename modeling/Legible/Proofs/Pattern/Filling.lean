import Legible.Pattern.Vocabulary
import Legible.Proofs.Pattern.RoundTrip
import Legible.Proofs.Results
import Mathlib.Algebra.Order.Ring.Nat

/-!
When a pattern cannot be filled, and what comes out when it can. Filling fails exactly if a
placeholder has no capture, or one that is a field has a list. Else every placeholder is replaced by
its capture, and lists among the items of a list are spliced in.
-/

namespace Legible

def Captures.listFor? (c : Captures) : Pattern → Option (List Tree)
  | .hole h =>
    match c.lookup h.name with
    | some (.list us) => some us
    | _ => none
  | _ => none

def Captures.share (c : Captures) (p : Pattern) : Nat :=
  match c.listFor? p with
  | some us => us.length
  | none => 1

theorem Captures.listFor?_eq_some {c : Captures} {p : Pattern} {us : List Tree} :
    c.listFor? p = some us ↔ ∃ h, p = .hole h ∧ c.lookup h.name = some (.list us) := by
  constructor
  · intro hl
    cases p with
    | hole h =>
      rw [listFor?] at hl
      split at hl
      · rename_i vs hv
        exact ⟨h, rfl, Option.some.inj hl ▸ hv⟩
      · cases hl
    | scalar a => cases hl
    | list ps => cases hl
    | object fs => cases hl
  · rintro ⟨h, rfl, hl⟩
    rw [listFor?, hl]

namespace Pattern

inductive Within : Pattern → Pattern → Prop
  | here {p} : Within p p
  | item {p q ps} : q ∈ ps → Within p q → Within p (.list ps)
  | field {p k q fs} : (k, q) ∈ fs → Within p q → Within p (.object fs)

mutual

/-- A tree is a pattern with every placeholder replaced by its capture. -/
inductive Filled (c : Captures) : Pattern → Tree → Prop
  | hole {h t} : c.lookup h.name = some t → Filled c (.hole h) t
  | scalar {a} : Filled c (.scalar a) (.scalar a)
  | list {ps pieces} : FilledItems c ps pieces → Filled c (.list ps) (.list pieces.flatten)
  | object {fs gs} : FilledFields c fs gs → Filled c (.object fs) (.object 0 gs)

inductive FilledItems (c : Captures) : List Pattern → List (List Tree) → Prop
  | nil : FilledItems c [] []
  | spliced {p us ps pieces} : c.listFor? p = some us → FilledItems c ps pieces →
      FilledItems c (p :: ps) (us :: pieces)
  | single {p t ps pieces} : c.listFor? p = none → Filled c p t → FilledItems c ps pieces →
      FilledItems c (p :: ps) ([t] :: pieces)

inductive FilledFields (c : Captures) : List (String × Pattern) → Fields → Prop
  | nil : FilledFields c [] []
  | field {k p t fs gs} : c.listFor? p = none → Filled c p t → FilledFields c fs gs →
      FilledFields c ((k, p) :: fs) ((k, t) :: gs)

end

/-- Why a pattern cannot be filled. -/
inductive Fault (c : Captures) (p : Pattern) : FillError → Prop
  | missing {h} : Within (.hole h) p → c.lookup h.name = none → Fault c p (.noCapture h.name)
  | list {fs k h us} : Within (.object fs) p → (k, .hole h) ∈ fs →
      c.lookup h.name = some (.list us) → Fault c p (.listInField h.name k)

variable {c : Captures} {p q : Pattern} {ps : List Pattern} {fs : List (String × Pattern)}
  {k : String} {e : FillError}

theorem Within.trans {r : Pattern} (h : Within p q) (h' : Within q r) : Within p r := by
  induction h' with
  | here => exact h
  | item hm _ ih => exact .item hm ih
  | field hm _ ih => exact .field hm ih

theorem Fault.within (h : Fault c p e) (hp : Within p q) : Fault c q e := by
  cases h with
  | missing hw hn => exact .missing (hw.trans hp) hn
  | list hw hm hl => exact .list (hw.trans hp) hm hl

theorem within_hole_iff {h : Placeholder} : Within (.hole h) p ↔ h ∈ p.holes := by
  constructor
  · intro hw
    generalize hq : hole h = q at hw
    induction hw with
    | here => exact hq ▸ List.mem_singleton_self h
    | item hm _ ih =>
      rw [holes, holesItems_eq]
      exact List.mem_flatMap.mpr ⟨_, hm, ih⟩
    | field hm _ ih =>
      rw [holes, holesFields_eq]
      exact List.mem_flatMap.mpr ⟨_, hm, ih⟩
  · intro hh
    induction p with
    | hole g => exact List.mem_singleton.mp hh ▸ .here
    | scalar a => cases hh
    | list ps ih =>
      rw [holes, holesItems_eq] at hh
      obtain ⟨p, hm, hh⟩ := List.mem_flatMap.mp hh
      exact .item hm (ih p hm hh)
    | object fs ih =>
      rw [holes, holesFields_eq] at hh
      obtain ⟨f, hm, hh⟩ := List.mem_flatMap.mp hh
      exact .field hm (ih f hm hh)

/-! ### One item and one field -/

theorem fill_hole_eq_ok {h : Placeholder} {t : Tree} :
    (hole h).fill c = .ok t ↔ c.lookup h.name = some t := by
  rw [fill, fillHole]
  cases c.lookup h.name <;> simp

theorem spliced_eq {t : Tree} (ht : p.fill c = .ok t) : p.spliced t = (c.listFor? p).getD [t] := by
  cases p with
  | hole h =>
    rw [Captures.listFor?, fill_hole_eq_ok.mp ht]
    cases t <;> rfl
  | scalar a => rfl
  | list ps => rfl
  | object fs => rfl

theorem fillItems_cons_eq_ok {ts : List Tree} : fillItems c (p :: ps) = .ok ts ↔
    ∃ t us, p.fill c = .ok t ∧ fillItems c ps = .ok us ∧ ts = (c.listFor? p).getD [t] ++ us := by
  constructor
  · intro h
    cases hp : p.fill c with
    | error e =>
      rw [fillItems, hp] at h
      cases h
    | ok t =>
      cases hps : fillItems c ps with
      | error e =>
        rw [fillItems, hp, hps] at h
        cases h
      | ok us =>
        rw [fillItems_cons hp hps, spliced_eq hp] at h
        exact ⟨t, us, rfl, rfl, (Except.ok.inj h).symm⟩
  · rintro ⟨t, us, hp, hps, rfl⟩
    rw [fillItems_cons hp hps, spliced_eq hp]

theorem fillItems_cons_eq_error (h : fillItems c (p :: ps) = .error e) :
    p.fill c = .error e ∨ fillItems c ps = .error e := by
  cases hp : p.fill c with
  | error e' =>
    rw [fillItems, hp] at h
    cases h
    exact Or.inl rfl
  | ok t =>
    cases hps : fillItems c ps with
    | error e' =>
      rw [fillItems, hp, hps] at h
      cases h
      exact Or.inr rfl
    | ok us =>
      rw [fillItems_cons hp hps] at h
      cases h

theorem fillFields_cons_of_list {us : List Tree} {h : Placeholder} (hp : p = .hole h)
    (hl : c.lookup h.name = some (.list us)) :
    fillFields c ((k, p) :: fs) = .error (.listInField h.name k) := by
  subst hp
  rw [fillFields, fill_hole_eq_ok.mpr hl]
  rfl

theorem fillFields_cons_of_single {t : Tree} (hl : c.listFor? p = none) (ht : p.fill c = .ok t) :
    fillFields c ((k, p) :: fs) = (fillFields c fs).map ((k, t) :: ·) := by
  have hnot : ∀ h us, p = .hole h → t ≠ .list us := by
    rintro h us rfl rfl
    rw [Captures.listFor?_eq_some.mpr ⟨h, rfl, fill_hole_eq_ok.mp ht⟩] at hl
    cases hl
  cases hfs : fillFields c fs with
  | ok gs => exact fillFields_cons ht hnot hfs
  | error e =>
    rw [fillFields, ht]
    cases p with
    | hole h =>
      cases t with
      | list us => exact absurd rfl (hnot h us rfl)
      | scalar a => simp only [hfs]; rfl
      | object tag gs => simp only [hfs]; rfl
    | scalar a => simp only [hfs]; rfl
    | list ps => simp only [hfs]; rfl
    | object gs => simp only [hfs]; rfl

theorem fillFields_cons_eq_ok {gs : Fields} : fillFields c ((k, p) :: fs) = .ok gs ↔
    ∃ t rest, c.listFor? p = none ∧ p.fill c = .ok t ∧ fillFields c fs = .ok rest ∧
      gs = (k, t) :: rest := by
  cases hl : c.listFor? p with
  | some us =>
    obtain ⟨h, hp, hh⟩ := Captures.listFor?_eq_some.mp hl
    rw [fillFields_cons_of_list hp hh]
    simp
  | none =>
    cases hp : p.fill c with
    | error e =>
      constructor
      · intro h
        rw [fillFields, hp] at h
        cases h
      · rintro ⟨t, rest, -, ht, -⟩
        cases ht
    | ok t =>
      rw [fillFields_cons_of_single hl hp, map_eq_ok_iff]
      simp

theorem fillFields_cons_eq_error (h : fillFields c ((k, p) :: fs) = .error e) :
    p.fill c = .error e ∨ fillFields c fs = .error e ∨
      ∃ g us, p = .hole g ∧ c.lookup g.name = some (.list us) ∧ e = .listInField g.name k := by
  cases hl : c.listFor? p with
  | some us =>
    obtain ⟨g, hp, hg⟩ := Captures.listFor?_eq_some.mp hl
    rw [fillFields_cons_of_list hp hg] at h
    exact Or.inr (Or.inr ⟨g, us, hp, hg, (Except.error.inj h).symm⟩)
  | none =>
    cases hp : p.fill c with
    | error e' =>
      rw [fillFields, hp] at h
      cases h
      exact Or.inl rfl
    | ok t =>
      rw [fillFields_cons_of_single hl hp, map_eq_error_iff] at h
      exact Or.inr (Or.inl h)

theorem fill_list_eq_ok {r : Tree} :
    (list ps).fill c = .ok r ↔ ∃ ts, fillItems c ps = .ok ts ∧ r = .list ts := by
  rw [fill, map_eq_ok_iff]

theorem fill_list_eq_error : (list ps).fill c = .error e ↔ fillItems c ps = .error e := by
  rw [fill, map_eq_error_iff]

theorem fill_object_eq_ok {r : Tree} :
    (object fs).fill c = .ok r ↔ ∃ gs, fillFields c fs = .ok gs ∧ r = .object 0 gs := by
  rw [fill, map_eq_ok_iff]

theorem fill_object_eq_error : (object fs).fill c = .error e ↔ fillFields c fs = .error e := by
  rw [fill, map_eq_error_iff]

/-! ### Failing -/

theorem fault_of_fill (h : p.fill c = .error e) : Fault c p e := by
  induction p with
  | hole g =>
    rw [fill, fillHole] at h
    split at h
    · cases h
    · rename_i hn
      exact Except.error.inj h ▸ .missing .here hn
  | scalar a => cases h
  | list ps ih =>
    have hitems : ∃ p ∈ ps, p.fill c = .error e := by
      rw [fill_list_eq_error] at h
      clear ih
      induction ps with
      | nil => cases h
      | cons p ps ihs =>
        rcases fillItems_cons_eq_error h with h | h
        · exact ⟨p, List.mem_cons_self, h⟩
        · obtain ⟨q, hq, hqe⟩ := ihs h
          exact ⟨q, List.mem_cons_of_mem _ hq, hqe⟩
    obtain ⟨q, hq, hqe⟩ := hitems
    exact (ih q hq hqe).within (.item hq .here)
  | object fs ih =>
    have hfields : ∃ f ∈ fs, f.2.fill c = .error e ∨
        ∃ g us, f.2 = .hole g ∧ c.lookup g.name = some (.list us) ∧ e = .listInField g.name f.1 := by
      rw [fill_object_eq_error] at h
      clear ih
      induction fs with
      | nil => cases h
      | cons f fs ihs =>
        obtain ⟨k, p⟩ := f
        rcases fillFields_cons_eq_error h with h | h | h
        · exact ⟨(k, p), List.mem_cons_self, Or.inl h⟩
        · obtain ⟨g, hg, hge⟩ := ihs h
          exact ⟨g, List.mem_cons_of_mem _ hg, hge⟩
        · exact ⟨(k, p), List.mem_cons_self, Or.inr h⟩
    obtain ⟨⟨k, q⟩, hf, hq | ⟨g, us, rfl, hl, rfl⟩⟩ := hfields
    · exact (ih (k, q) hf hq).within (.field hf .here)
    · exact .list .here hf hl

theorem fill_mem_items {ts : List Tree} (h : fillItems c ps = .ok ts) (hm : q ∈ ps) :
    ∃ t, q.fill c = .ok t := by
  induction ps generalizing ts with
  | nil => cases hm
  | cons p ps ih =>
    obtain ⟨t, us, ht, hus, -⟩ := fillItems_cons_eq_ok.mp h
    rcases List.mem_cons.mp hm with rfl | hm
    · exact ⟨t, ht⟩
    · exact ih hus hm

theorem fill_mem_fields {gs : Fields} (h : fillFields c fs = .ok gs) (hm : (k, q) ∈ fs) :
    c.listFor? q = none ∧ ∃ t, q.fill c = .ok t := by
  induction fs generalizing gs with
  | nil => cases hm
  | cons f fs ih =>
    obtain ⟨t, rest, hl, ht, hrest, -⟩ := fillFields_cons_eq_ok.mp h
    rcases List.mem_cons.mp hm with rfl | hm
    · exact ⟨hl, t, ht⟩
    · exact ih hrest hm

theorem fill_within (hw : Within q p) {r : Tree} (h : p.fill c = .ok r) : ∃ t, q.fill c = .ok t := by
  induction hw generalizing r with
  | here => exact ⟨r, h⟩
  | item hm _ ih =>
    obtain ⟨ts, hts, -⟩ := fill_list_eq_ok.mp h
    obtain ⟨t, ht⟩ := fill_mem_items hts hm
    exact ih ht
  | field hm _ ih =>
    obtain ⟨gs, hgs, -⟩ := fill_object_eq_ok.mp h
    obtain ⟨-, t, ht⟩ := fill_mem_fields hgs hm
    exact ih ht

theorem not_fault_of_fill {r : Tree} (h : p.fill c = .ok r) : ¬ Fault c p e := by
  rintro (⟨hw, hn⟩ | ⟨hw, hm, hl⟩)
  · obtain ⟨t, ht⟩ := fill_within hw h
    rw [fill_hole_eq_ok, hn] at ht
    cases ht
  · rename_i fs k g us
    obtain ⟨t, ht⟩ := fill_within hw h
    obtain ⟨gs, hgs, -⟩ := fill_object_eq_ok.mp ht
    have hnone := (fill_mem_fields hgs hm).1
    rw [Captures.listFor?_eq_some.mpr ⟨g, rfl, hl⟩] at hnone
    cases hnone

theorem exists_fill_error_iff : (∃ e, p.fill c = .error e) ↔ ∃ e, Fault c p e := by
  constructor
  · rintro ⟨e, he⟩
    exact ⟨e, fault_of_fill he⟩
  · rintro ⟨e, he⟩
    cases hp : p.fill c with
    | error e' => exact ⟨e', rfl⟩
    | ok r => exact absurd he (not_fault_of_fill hp)

/-! ### Succeeding -/

theorem fillItems_eq_ok_iff (ih : ∀ p ∈ ps, ∀ r, p.fill c = .ok r ↔ Filled c p r) {ts : List Tree} :
    fillItems c ps = .ok ts ↔ ∃ pieces, FilledItems c ps pieces ∧ ts = pieces.flatten := by
  induction ps generalizing ts with
  | nil =>
    constructor
    · intro h
      exact ⟨[], .nil, (Except.ok.inj h).symm⟩
    · rintro ⟨pieces, hp, rfl⟩
      cases hp
      rfl
  | cons p ps ihs =>
    rw [List.forall_mem_cons] at ih
    rw [fillItems_cons_eq_ok]
    constructor
    · rintro ⟨t, us, ht, hus, rfl⟩
      obtain ⟨pieces, hpieces, rfl⟩ := (ihs ih.2).mp hus
      cases hl : c.listFor? p with
      | some vs => exact ⟨vs :: pieces, .spliced hl hpieces, rfl⟩
      | none => exact ⟨[t] :: pieces, .single hl ((ih.1 t).mp ht) hpieces, rfl⟩
    · rintro ⟨pieces, hpieces, rfl⟩
      cases hpieces with
      | spliced hl hrest =>
        obtain ⟨h, rfl, hh⟩ := Captures.listFor?_eq_some.mp hl
        exact ⟨_, _, fill_hole_eq_ok.mpr hh, (ihs ih.2).mpr ⟨_, hrest, rfl⟩, by rw [hl]; rfl⟩
      | single hl ht hrest =>
        exact ⟨_, _, (ih.1 _).mpr ht, (ihs ih.2).mpr ⟨_, hrest, rfl⟩, by rw [hl]; rfl⟩

theorem fillFields_eq_ok_iff (ih : ∀ f ∈ fs, ∀ r, f.2.fill c = .ok r ↔ Filled c f.2 r)
    {gs : Fields} : fillFields c fs = .ok gs ↔ FilledFields c fs gs := by
  induction fs generalizing gs with
  | nil =>
    constructor
    · intro h
      exact Except.ok.inj h ▸ .nil
    · intro h
      cases h
      rfl
  | cons f fs ihs =>
    obtain ⟨k, p⟩ := f
    rw [List.forall_mem_cons] at ih
    rw [fillFields_cons_eq_ok]
    constructor
    · rintro ⟨t, rest, hl, ht, hrest, rfl⟩
      exact .field hl ((ih.1 t).mp ht) ((ihs ih.2).mp hrest)
    · intro h
      cases h with
      | field hl ht hrest => exact ⟨_, _, hl, (ih.1 _).mpr ht, (ihs ih.2).mpr hrest, rfl⟩

theorem fill_eq_ok_iff {r : Tree} : p.fill c = .ok r ↔ Filled c p r := by
  induction p generalizing r with
  | hole h =>
    rw [fill_hole_eq_ok]
    constructor
    · exact .hole
    · intro hf
      cases hf
      assumption
  | scalar a =>
    constructor
    · intro h
      exact Except.ok.inj h ▸ .scalar
    · intro h
      cases h
      rfl
  | list ps ih =>
    have hitems : ∀ ts, fillItems c ps = .ok ts ↔
        ∃ pieces, FilledItems c ps pieces ∧ ts = pieces.flatten :=
      fun _ => fillItems_eq_ok_iff fun p hm r => ih p hm (r := r)
    rw [fill_list_eq_ok]
    constructor
    · rintro ⟨ts, hts, rfl⟩
      obtain ⟨pieces, hpieces, rfl⟩ := (hitems ts).mp hts
      exact .list hpieces
    · intro h
      cases h with
      | list hpieces => exact ⟨_, (hitems _).mpr ⟨_, hpieces, rfl⟩, rfl⟩
  | object fs ih =>
    have hfields : ∀ gs, fillFields c fs = .ok gs ↔ FilledFields c fs gs :=
      fun _ => fillFields_eq_ok_iff fun f hm r => ih f hm (r := r)
    rw [fill_object_eq_ok]
    constructor
    · rintro ⟨gs, hgs, rfl⟩
      exact .object ((hfields gs).mp hgs)
    · intro h
      cases h with
      | object hgs => exact ⟨_, (hfields _).mpr hgs, rfl⟩

theorem length_of_fillItems {ts : List Tree} (h : fillItems c ps = .ok ts) :
    ts.length = (ps.map c.share).sum := by
  induction ps generalizing ts with
  | nil =>
    obtain rfl := Except.ok.inj h
    rfl
  | cons p ps ih =>
    obtain ⟨t, us, -, hus, rfl⟩ := fillItems_cons_eq_ok.mp h
    rw [List.length_append, ih hus, List.map_cons, List.sum_cons, Captures.share]
    cases c.listFor? p <;> rfl

/-! ### Captures that do not matter -/

theorem fill_congr {d : Captures} (h : ∀ g, Within (.hole g) p → c.lookup g.name = d.lookup g.name) :
    p.fill c = p.fill d := by
  induction p with
  | hole g => rw [fill, fill, fillHole, fillHole, h g .here]
  | scalar a => rfl
  | list ps ih =>
    have hall : ∀ p ∈ ps, p.fill c = p.fill d :=
      fun p hm => ih p hm fun g hg => h g (hg.trans (.item hm .here))
    rw [fill, fill]
    clear ih h
    congr 1
    induction ps with
    | nil => rfl
    | cons p ps ihs =>
      rw [List.forall_mem_cons] at hall
      rw [fillItems, fillItems, hall.1, ihs hall.2]
  | object fs ih =>
    have hall : ∀ f ∈ fs, f.2.fill c = f.2.fill d :=
      fun f hm => ih f hm fun g hg => h g (hg.trans (.field hm .here))
    rw [fill, fill]
    clear ih h
    congr 1
    induction fs with
    | nil => rfl
    | cons f fs ihs =>
      obtain ⟨k, p⟩ := f
      rw [List.forall_mem_cons] at hall
      rw [fillFields, fillFields, hall.1, ihs hall.2]

/-- Filling fails exactly if a placeholder has no capture or one that is a field has a list, and the
error tells of such a placeholder. Else the result is the pattern with its placeholders replaced,
where a list has as many items as its patterns contribute. Other captures do not matter. -/
theorem fill_outcome (p : Pattern) (c : Captures) :
    ((∃ e, p.fill c = .error e) ↔
      (∃ h ∈ p.holes, c.lookup h.name = none) ∨
        ∃ fs k h us, Within (.object fs) p ∧ (k, .hole h) ∈ fs ∧
          c.lookup h.name = some (.list us)) ∧
    (∀ e, p.fill c = .error e → Fault c p e) ∧
    (∀ r, p.fill c = .ok r ↔ Filled c p r) ∧
    (∀ r ps, p.fill c = .ok r → Within (.list ps) p →
      ∃ ts, (list ps).fill c = .ok (.list ts) ∧ ts.length = (ps.map c.share).sum) ∧
    ∀ d : Captures, (∀ h ∈ p.holes, c.lookup h.name = d.lookup h.name) → p.fill c = p.fill d := by
  refine ⟨exists_fill_error_iff.trans ⟨?_, ?_⟩, fun e => fault_of_fill, fun r => fill_eq_ok_iff,
    fun r ps hr hw => ?_, fun d hd => fill_congr fun h hw => hd h (within_hole_iff.mp hw)⟩
  · rintro ⟨_, ⟨hw, hn⟩ | ⟨hw, hm, hl⟩⟩
    · exact Or.inl ⟨_, within_hole_iff.mp hw, hn⟩
    · exact Or.inr ⟨_, _, _, _, hw, hm, hl⟩
  · rintro (⟨h, hh, hn⟩ | ⟨fs, k, h, us, hw, hm, hl⟩)
    · exact ⟨_, .missing (within_hole_iff.mpr hh) hn⟩
    · exact ⟨_, .list hw hm hl⟩
  · obtain ⟨t, ht⟩ := fill_within hw hr
    obtain ⟨ts, hts, rfl⟩ := fill_list_eq_ok.mp ht
    exact ⟨ts, ht, length_of_fillItems hts⟩

theorem fill_outcome_arguments :
    let arguments : List Pattern := [optionalExpression "expression2", expressions "expression3",
      Form.arrayExpression [expressions "expression3", anyName "placeholder1"]]
    let call (callee : String) : Pattern :=
      Form.callExpression (anyExpression callee) arguments
    let needed : Captures := [("expression1", Form.identifier "f"), ("expression2", .null),
      ("expression3", .list [Form.identifier "a", .null]), ("placeholder1", .text "b")]
    let c : Captures := ("expression9", .list []) :: needed
    ((∀ h ∈ (call "expression1").holes, c.lookup h.name = needed.lookup h.name) ∧
      Within (.list arguments) (call "expression1")) ∧
      (∃ r, (call "expression1").fill c = .ok r ∧ Filled c (call "expression1") r ∧
        (call "expression1").fill needed = .ok r) ∧
      (∃ ts, (list arguments).fill c = .ok (.list ts) ∧ ts.length = 4) ∧
      (∃ e, (call "expression3").fill c = .error e) ∧
      ∃ e, (call "expression4").fill c = .error e := by
  intro arguments call needed c
  have hsame : ∀ h ∈ (call "expression1").holes, c.lookup h.name = needed.lookup h.name :=
    List.forall_mem_cons.mpr ⟨rfl, List.forall_mem_cons.mpr ⟨rfl, List.forall_mem_cons.mpr ⟨rfl,
      List.forall_mem_cons.mpr ⟨rfl, List.forall_mem_singleton.mpr rfl⟩⟩⟩⟩
  have hwithin : Within (.list arguments) (call "expression1") :=
    .field (k := "arguments") (List.mem_cons_of_mem _ (List.mem_cons_of_mem _ List.mem_cons_self)) .here
  have hok : ∃ r, (call "expression1").fill c = .ok r := ⟨_, rfl⟩
  obtain ⟨r, hr⟩ := hok
  obtain ⟨-, -, hfilled, hlists, hothers⟩ := fill_outcome (call "expression1") c
  refine ⟨⟨hsame, hwithin⟩, ⟨r, hr, (hfilled r).mp hr, (hothers needed hsame).symm.trans hr⟩,
    hlists r arguments hr hwithin, (fill_outcome (call "expression3") c).1.mpr (Or.inr ?_),
    (fill_outcome (call "expression4") c).1.mpr (Or.inl ?_)⟩
  · exact ⟨_, "callee", _, _, .here, List.mem_cons_of_mem _ List.mem_cons_self, rfl⟩
  · exact ⟨⟨"expression4", .expression .any false false, false, false⟩, by decide, rfl⟩

end Pattern

end Legible
