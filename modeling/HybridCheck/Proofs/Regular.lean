import HybridCheck.Proofs.TermText
import HybridCheck.Proofs.Temporal

/-!
# Regular formulas

The formulas that are read from text are regular: their atoms are Boolean variables and comparisons,
their windows begin now or later, and conjunctions and disjunctions have at least two parts. Nothing
in them is missing or guessed, and nothing matters in them that is not written in their text. The
negation normal form of a regular formula is regular. Formulas over any constraints are formed in
the same way, and what is said of their texts below is said of them all.
-/

namespace HybridCheck

/-- A constraint as it occurs in a formula: a Boolean variable or constant, a comparison, or the
negation of such a constraint. -/
inductive IsAtom (P : Var → Prop) : Term → Prop where
  | var {v : Var} : P v → v.name ≠ "not" → v.sort = .bool → IsAtom P (.var v)
  | bool (b : Bool) : IsAtom P (.bool b)
  | cmp (r : Relation) {a b : Term} : a.BuiltOver P → b.BuiltOver P → a.canonical = a →
      b.canonical = b → IsAtom P (.cmp r a b)
  | not {a : Term} : IsAtom P a → (∀ b, a ≠ .bool b) → IsAtom P (.not a)

theorem IsAtom.builtOver {P : Var → Prop} {c : Term} (h : IsAtom P c) : c.BuiltOver P := by
  induction h with
  | var h => exact .var h
  | bool b => exact .operator (o := .bool b) rfl (by simp [Term.operands])
  | cmp r ha hb => exact .operator (o := .cmp r) rfl (by simpa [Term.operands] using ⟨ha, hb⟩)
  | not _ _ ih => exact .operator (o := .not) rfl (by simpa [Term.operands] using ih)

theorem IsAtom.sort {P : Var → Prop} {c : Term} (h : IsAtom P c) : c.sort = .bool := by
  cases h with
  | var _ _ h => exact h
  | bool | cmp | not => rfl

theorem IsAtom.canonical {P : Var → Prop} {c : Term} (h : IsAtom P c) : c.canonical = c := by
  induction h with
  | var => rfl
  | bool => rfl
  | cmp r _ _ ha hb => rw [Term.canonical, ha, hb]
  | not _ _ ih => rw [Term.canonical, ih]

/-- The negation of a constraint is an atom, and it is a constant only if the constraint is. -/
theorem IsAtom.mkNot {P : Var → Prop} {c : Term} (h : IsAtom P c) :
    IsAtom P c.mkNot ∧ ((∀ b, c ≠ .bool b) → ∀ b, c.mkNot ≠ .bool b) := by
  cases h with
  | var h h' hsort => exact ⟨.not (.var h h' hsort) nofun, nofun⟩
  | bool b => exact ⟨.bool !b, fun h => absurd rfl (h b)⟩
  | cmp r ha hb ha' hb' => exact ⟨.not (.cmp r ha hb ha' hb') nofun, nofun⟩
  | not h h' => exact ⟨h, fun _ => h'⟩

/-- A window that begins now or later and whose ends are as they are written. -/
structure Window.Forward (w : Window) : Prop where
  nonneg : 0 ≤ w.lower
  written : w.lo = some w.lower
  unbounded : w.hi = none → w.rightOpen = true

/-- The propositions and variables of formulas can be told apart. -/
structure Vocabulary (P : Var → Prop) (R : String → Prop) : Prop where
  named : ∀ v, P v → isIdentifier v.name = true
  constant : ∀ v, P v → v.name ≠ "true" ∧ v.name ≠ "false"
  unique : ∀ v w, P v → P w → v.name = w.name → v = w
  identifier : ∀ name, R name → isIdentifier name = true
  reserved : ∀ name, R name → name ≠ "true" ∧ name ≠ "false"
  apart : ∀ name v, R name → P v → name ≠ v.name

theorem Vocabulary.legible {P : Var → Prop} {R : String → Prop} (h : Vocabulary P R) : Legible P :=
  ⟨fun v hv => isLabel_of_identifier (h.named v hv), h.constant, h.unique⟩

namespace Formula

mutual

/-- A formula over propositions and constraints whose windows begin now or later, whose
conjunctions and disjunctions have at least two parts, and of which nothing is missing or
guessed. -/
def Formed (A : Term → Prop) (R : String → Prop) : Formula → Prop
  | bool _ => True
  | prop name => R name
  | atom c => A c
  | not f => Formed A R f
  | and fs | or fs => 2 ≤ fs.length ∧ FormedAll A R fs
  | implies l r => Formed A R l ∧ Formed A R r
  | eventually w f | always w f => w.Forward ∧ Formed A R f
  | untl w l r | release w l r => w.Forward ∧ Formed A R l ∧ Formed A R r
  | witness _ | missing => False

def FormedAll (A : Term → Prop) (R : String → Prop) : List Formula → Prop
  | [] => True
  | f :: fs => Formed A R f ∧ FormedAll A R fs

end

/-- A formula over propositions and variables as it is read from text. -/
abbrev Regular (P : Var → Prop) (R : String → Prop) (f : Formula) : Prop := f.Formed (IsAtom P) R

abbrev RegularAll (P : Var → Prop) (R : String → Prop) (fs : List Formula) : Prop :=
  FormedAll (IsAtom P) R fs

/-- A formula over propositions and any constraints over variables. -/
abbrev Over (P : Var → Prop) (R : String → Prop) (f : Formula) : Prop :=
  f.Formed (Term.BuiltOver P) R

variable {A B : Term → Prop} {P : Var → Prop} {R : String → Prop}

theorem formedAll_iff {fs : List Formula} : FormedAll A R fs ↔ ∀ f ∈ fs, f.Formed A R := by
  induction fs with
  | nil => simp [FormedAll]
  | cons f fs ih => simp [FormedAll, ih]

/-- What holds of propositions, atoms and constants holds of every part of a formula. -/
theorem Formed.every {leaf : Formula → Prop} (hbool : ∀ b, leaf (bool b))
    (hprop : ∀ name, R name → leaf (prop name)) (hatom : ∀ c, A c → leaf (atom c))
    {f : Formula} (h : f.Formed A R) : f.Every leaf fun w => 0 ≤ w.lower := by
  induction f using Formula.induct with
  | bool b => exact hbool b
  | prop name => exact hprop name h
  | atom c => exact hatom c h
  | not f ih => exact ih h
  | and fs ih | or fs ih =>
    rw [Every, everyAll_iff]
    exact fun f hf => ih f hf (formedAll_iff.1 h.2 f hf)
  | implies l r ihl ihr => exact ⟨ihl h.1, ihr h.2⟩
  | eventually w f ih | always w f ih => exact ⟨h.1.nonneg, ih h.2⟩
  | untl w l r ihl ihr | release w l r ihl ihr => exact ⟨h.1.nonneg, ihl h.2.1, ihr h.2.2⟩
  | witness | missing => exact h.elim

theorem Formed.mono (hA : ∀ c, A c → B c) {f : Formula} (h : f.Formed A R) : f.Formed B R := by
  induction f using Formula.induct with
  | bool => trivial
  | prop => exact h
  | atom c => exact hA c h
  | not f ih => exact ih h
  | and fs ih | or fs ih =>
    exact ⟨h.1, formedAll_iff.2 fun f hf => ih f hf (formedAll_iff.1 h.2 f hf)⟩
  | implies l r ihl ihr => exact ⟨ihl h.1, ihr h.2⟩
  | eventually w f ih | always w f ih => exact ⟨h.1, ih h.2⟩
  | untl w l r ihl ihr | release w l r ihl ihr => exact ⟨h.1, ihl h.2.1, ihr h.2.2⟩
  | witness | missing => exact h.elim

/-- If negated constraints are allowed, so is the negation normal form. -/
theorem Formed.normal (hA : ∀ c, A c → A c.mkNot) {f : Formula} (h : f.Formed A R)
    (negated : Bool) : (f.normal negated).Formed A R := by
  induction f using Formula.induct generalizing negated with
  | bool => simp [Formula.normal, Formed]
  | prop =>
    rw [Formula.normal]
    split <;> exact h
  | atom c =>
    rw [Formula.normal]
    split
    · exact hA c h
    · exact h
  | not f ih => exact ih h _
  | and fs ih | or fs ih =>
    obtain ⟨hlen, hall⟩ := h
    have parts (negated : Bool) : 2 ≤ (normalAll negated fs).length ∧
        FormedAll A R (normalAll negated fs) := by
      rw [normalAll_eq, List.length_map, formedAll_iff]
      refine ⟨hlen, ?_⟩
      simpa using fun f hf => ih f hf (formedAll_iff.1 hall f hf) negated
    rw [Formula.normal]
    split <;> exact parts _
  | implies l r ihl ihr =>
    rw [Formula.normal]
    split
    · exact ⟨le_rfl, ihl h.1 _, ihr h.2 _, trivial⟩
    · exact ⟨le_rfl, ihl h.1 _, ihr h.2 _, trivial⟩
  | eventually w f ih | always w f ih =>
    rw [Formula.normal]
    split <;> exact ⟨h.1, ih h.2 _⟩
  | untl w l r ihl ihr | release w l r ihl ihr =>
    rw [Formula.normal]
    split <;> exact ⟨h.1, ihl h.2.1 _, ihr h.2.2 _⟩
  | witness | missing => exact h.elim

theorem Regular.normal {f : Formula} (h : f.Regular P R) (negated : Bool) :
    (f.normal negated).Regular P R :=
  Formed.normal (fun _ hc => hc.mkNot.1) h negated

theorem Regular.over {f : Formula} (h : f.Regular P R) : f.Over P R :=
  Formed.mono (fun _ hc => hc.builtOver) h

theorem Over.normal {f : Formula} (h : f.Over P R) (negated : Bool) : (f.normal negated).Over P R :=
  Formed.normal (fun _ hc => (Term.hereditary_over fun _ _ _ h => h.elim).mkNot hc) h negated

end Formula

end HybridCheck
