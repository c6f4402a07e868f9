import Legible.Proofs.Script.Recast
import Legible.Script
import Mathlib

namespace Legible.Script

open Std.Do Read Contents

set_option mvcgen.warning false

theorem wp_eq {α : Type} (m : Read α) (Q : PostCond α (.arg Reader (.except PUnit .pure)))
    (r : Reader) : wp⟦m⟧ Q r = match m r with
      | some (a, r') => Q.1 a r'
      | none => Q.2.1 ⟨⟩ := by
  change (PredTrans.pushOption (wp (m := Id) (m r))).apply _ = _
  cases m r <;> rfl

theorem triple_iff {α : Type} {m : Read α} {I : Reader → Prop} {P : α → Reader → Prop} :
    ⦃fun r => ⌜I r⌝⦄ m ⦃⇓? a r => ⌜P a r⌝⦄ ↔ ∀ r a r', I r → m r = some (a, r') → P a r' := by
  constructor
  · intro h r a r' hr hm
    have hw := h r hr
    rw [wp_eq, hm] at hw
    exact hw
  · intro h r hr
    rw [wp_eq]
    cases hm : m r with
    | none => trivial
    | some x => exact h r x.1 x.2 hr hm

abbrev Gives {α : Type} (m : Read α) (P : α → Prop) : Prop :=
  ⦃⌜True⌝⦄ m ⦃⇓? a => ⌜P a⌝⦄

abbrev Makes (kinds : List String) (m : Read Tree) : Prop :=
  Gives m (one kinds).Reads

@[spec low]
theorem triple_true {α : Type} (m : Read α) : ⦃⌜True⌝⦄ m ⦃⇓? _ => ⌜True⌝⦄ :=
  triple_iff.mpr fun _ _ _ _ _ => trivial

section

variable {α β : Type}

theorem triple_mono {m : Read α} {P Q : α → Prop} (h : Gives m P)
    (hPQ : ∀ a, P a → Q a) : Gives m Q :=
  triple_iff.mpr fun r a r' hr hm => hPQ a (triple_iff.mp h r a r' hr hm)

theorem widen_spec {m : Read Tree} {kinds : List String} (kinds' : List String)
    (h : Makes kinds m) (hk : kinds ⊆ kinds') :
    Makes kinds' m :=
  triple_mono h fun _ ht => ht.mono hk nofun rfl

@[spec]
theorem failure_spec {P : α → Prop} : ⦃⌜True⌝⦄ (failure : Read α) ⦃⇓? a => ⌜P a⌝⦄ :=
  triple_iff.mpr fun _ _ _ _ h => nomatch h

@[spec]
theorem guard_spec (p : Prop) [Decidable p] : ⦃⌜True⌝⦄ (guard p : Read Unit) ⦃⇓? _ => ⌜p⌝⦄ := by
  refine triple_iff.mpr fun r _ _ _ h => ?_
  by_contra hp
  rw [guard, if_neg hp] at h
  cases h

theorem lift_spec {o : Option α} {P : α → Prop} (h : ∀ a, o = some a → P a) :
    Gives (liftM o : Read α) P := by
  refine triple_iff.mpr fun r a r' _ hm => h a ?_
  cases o with
  | none => cases hm
  | some b =>
    cases hm
    rfl

/-! ### The next token -/

theorem token_spec : ⦃⌜True⌝⦄ token ⦃⇓? t r => ⌜r.next.token = t⌝⦄ :=
  triple_iff.mpr fun r t r' _ h => by cases h; rfl

theorem acceptPunct_spec (t : Token) (s : String) :
    ⦃fun r => ⌜r.next.token = t⌝⦄ acceptPunct s ⦃⇓? b => ⌜b = true → t = .punct s⌝⦄ := by
  refine triple_iff.mpr fun r b r' hr h hb => ?_
  by_contra hne
  have hf : (r.next.token == .punct s) = false := by
    rw [hr]
    exact beq_false_of_ne hne
  have hr' : acceptPunct s r = some (false, r) := by
    change (if (r.next.token == .punct s) = true then _ else _ : Read Bool) r = _
    rw [hf]
    rfl
  rw [hr'] at h
  cases h
  cases hb

theorem advance_spec (P : Token → Prop) :
    ⦃fun r => ⌜P r.next.token⌝⦄ advance ⦃⇓? l => ⌜P l.token⌝⦄ := by
  refine triple_iff.mpr fun r a r' hr h => ?_
  change (goTo r.place r.next.line r).bind _ = _ at h
  obtain ⟨x, -, h⟩ := Option.bind_eq_some_iff.mp h
  cases h
  exact hr

theorem peek_spec (t : Token) :
    ⦃fun r => ⌜r.next.token = t⌝⦄ peek ⦃⇓? _ r => ⌜r.next.token = t⌝⦄ := by
  refine triple_iff.mpr fun r a r' hr h => ?_
  change ((r.place.lexeme? false).bind fun x => some (x, r)).bind _ = _ at h
  obtain ⟨x, hx, h⟩ := Option.bind_eq_some_iff.mp h
  obtain ⟨y, -, hy⟩ := Option.bind_eq_some_iff.mp hx
  cases hy
  cases h
  exact hr

/-! ### Repetition -/

theorem repeatStep_spec {I : α → Prop} {P : β → Prop} {step : α → Read (α ⊕ β)}
    (hstep : ∀ a, I a → Gives (step a) fun s => Sum.elim I P s) (fuel : Nat) (a : α)
    (ha : I a) : Gives (repeatStep step fuel a) P := by
  induction fuel generalizing a with
  | zero => exact failure_spec
  | succ fuel ih =>
    have hs := hstep a ha
    rw [repeatStep]
    mvcgen [hs, ih]
    exact fun _ h => h

def Gathers (Q : Tree → Prop) : List Tree ⊕ List Tree → Prop :=
  Sum.elim (∀ t ∈ ·, Q t) (∀ t ∈ ·, Q t)

section

variable {Q : Tree → Prop} {t : Tree} {acc : List Tree}

theorem Gathers.more (ht : Q t) (hacc : ∀ t ∈ acc, Q t) : Gathers Q (.inl (t :: acc)) :=
  List.forall_mem_cons.mpr ⟨ht, hacc⟩

theorem Gathers.done (hacc : ∀ t ∈ acc, Q t) : Gathers Q (.inr acc.reverse) :=
  fun t ht => hacc t (List.mem_reverse.mp ht)

theorem gather_spec {step : List Tree → Read (List Tree ⊕ List Tree)}
    (hstep : ∀ acc, (∀ t ∈ acc, Q t) → Gives (step acc) fun s => Gathers Q s)
    (fuel : Nat) (hacc : ∀ t ∈ acc, Q t) :
    Gives (repeatStep step fuel acc) fun ts => ∀ t ∈ ts, Q t :=
  repeatStep_spec hstep fuel acc hacc

variable {item : Read Tree} (h : Gives item Q)

include h

theorem itemsUntil_spec (close : String) (fuel : Nat) :
    Gives (itemsUntil close item fuel) fun ts => ∀ t ∈ ts, Q t := by
  refine gather_spec (fun acc hacc => ?_) fuel (by simp)
  mvcgen [h]
  · exact Gathers.done hacc
  · exact Gathers.more ‹_› hacc

theorem separatedList_spec {separator : Read Unit} (hs : Gives separator fun _ => True)
    (close : String) (fuel : Nat) :
    Gives (separatedList separator close item fuel) fun ts => ∀ t ∈ ts, Q t := by
  refine gather_spec (fun acc hacc => ?_) fuel (by simp)
  mvcgen [h, hs]
  · exact Gathers.done hacc
  · exact Gathers.more ‹_› hacc
  · exact Gathers.more ‹_› hacc

theorem commaList_spec (close : String) (fuel : Nat) :
    Gives (commaList close item fuel) fun ts => ∀ t ∈ ts, Q t :=
  separatedList_spec h (by mvcgen) close fuel

theorem looseList_spec (close : String) (fuel : Nat) :
    Gives (looseList close item fuel) fun ts => ∀ t ∈ ts, Q t :=
  separatedList_spec h (by mvcgen) close fuel

end

end

section

variable {α : Type} {p : Read α} {P : α → Prop} (hp : Gives p P)

include hp

theorem isolated_spec : Gives (isolated p) P := by
  unfold isolated
  mvcgen [hp]

theorem shared_spec : Gives (shared p) P := by
  unfold shared
  mvcgen [hp]

theorem keepStrict_spec : Gives (keepStrict p) P := by
  unfold keepStrict
  mvcgen [hp]

theorem withYieldIsName_spec (b : Bool) : Gives (withYieldIsName b p) P := by
  unfold withYieldIsName
  mvcgen [hp]

end

end Legible.Script
