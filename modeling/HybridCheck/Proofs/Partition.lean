import HybridCheck.Proofs.Regular
import HybridCheck.Proofs.Tabulation

/-!
# Partitions of formulas

The atoms of a formula can be collected if nothing of it is missing or guessed: its partition has an
entry for every proposition and constraint of the formula, and no other entries. If a signal has a
value for every entry in every step, the atoms can be tabulated, and the table has a row for every
part of the formula.
-/

namespace HybridCheck

variable {A : Term → Prop} {R : String → Prop} {leaf : Formula → Prop}

def Atomic.formula : Atomic → Formula
  | prop name => .prop name
  | constraint c => .atom c

/-- An entry of the partition of a formula whose propositions and constraints have a property. -/
structure IsEntry (leaf : Formula → Prop) (e : String × Atomic) : Prop where
  key : e.1 = e.2.formula.text
  part : leaf e.2.formula

theorem Partition.mem_propositions {p : Partition} {name : String} :
    name ∈ p.propositions ↔ ∃ key, (key, Atomic.prop name) ∈ p := by
  rw [propositions, List.mem_filterMap]
  constructor
  · rintro ⟨⟨key, a⟩, ha, h⟩
    cases a with
    | prop name' =>
      cases h
      exact ⟨key, ha⟩
    | constraint c => cases h
  · rintro ⟨key, ha⟩
    exact ⟨_, ha, rfl⟩

namespace Formula

def Listed (p : Partition) : Formula → Prop
  | bool _ => True
  | prop name => (p.get? name).isSome = true
  | atom c => (p.get? c.text).isSome = true
  | _ => False

/-- What collecting the atoms of a formula adds to a partition. -/
structure Collects (leaf : Formula → Prop) (acc : Partition) (f : Formula) (p : Partition) :
    Prop where
  entries : ∀ e ∈ p, IsEntry leaf e
  kept : ∀ key, (acc.get? key).isSome = true → (p.get? key).isSome = true
  listed : f.Every (Listed p) fun w => 0 ≤ w.lower

theorem Every.listed_mono {p p' : Partition}
    (h : ∀ key, (p.get? key).isSome = true → (p'.get? key).isSome = true) {f : Formula}
    (hf : f.Every (Listed p) fun w => 0 ≤ w.lower) : f.Every (Listed p') fun w => 0 ≤ w.lower := by
  refine hf.mono (fun g hg => ?_) fun _ h => h
  cases g with
  | prop name => exact h _ hg
  | atom c => exact h _ hg
  | _ => exact hg

theorem isSome_get?_put {α : Type} {t : Table α} {name key : String} {v : α}
    (h : (t.get? key).isSome = true) : ((t.put name v).get? key).isSome = true := by
  by_cases hk : name = key
  · subst hk
    simp
  · rwa [Table.get?_put_of_ne _ _ hk]

theorem collects_put {acc : Partition} (hacc : ∀ e ∈ acc, IsEntry leaf e) {key : String}
    {a : Atomic} (ha : IsEntry leaf (key, a)) :
    (∀ e ∈ acc.put key a, IsEntry leaf e) ∧
      ∀ k, (acc.get? k).isSome = true → ((acc.put key a).get? k).isSome = true := by
  refine ⟨fun e he => ?_, fun k hk => isSome_get?_put hk⟩
  rcases Table.mem_of_mem_put he with rfl | he
  · exact ha
  · exact hacc e he

def Collectable (leaf : Formula → Prop) (f : Formula) : Prop :=
  ∀ acc : Partition, (∀ e ∈ acc, IsEntry leaf e) →
    ∃ p, Formula.collectAtoms acc f = .ok p ∧ Collects leaf acc f p

theorem collects_all {fs : List Formula} (ih : ∀ f ∈ fs, Collectable leaf f) {acc : Partition}
    (hacc : ∀ e ∈ acc, IsEntry leaf e) :
    ∃ p, collectAtomsAll acc fs = .ok p ∧ (∀ e ∈ p, IsEntry leaf e) ∧
      (∀ key, (acc.get? key).isSome = true → (p.get? key).isSome = true) ∧
      ∀ f ∈ fs, f.Every (Listed p) fun w => 0 ≤ w.lower := by
  induction fs generalizing acc with
  | nil => exact ⟨acc, rfl, hacc, fun _ h => h, by simp⟩
  | cons f fs ih' =>
    obtain ⟨p, hp, first⟩ := ih f (by simp) acc hacc
    obtain ⟨p', hp', entries, kept, listed⟩ := ih' (fun f hf => ih f (by simp [hf])) first.entries
    refine ⟨p', ?_, entries, fun key h => kept key (first.kept key h), ?_⟩
    · rw [collectAtomsAll, hp]
      exact hp'
    · simpa using ⟨first.listed.listed_mono kept, listed⟩

theorem collects_both {l r : Formula} (ihl : Collectable leaf l) (ihr : Collectable leaf r)
    {acc : Partition} (hacc : ∀ e ∈ acc, IsEntry leaf e) :
    ∃ p, (do Formula.collectAtoms (← Formula.collectAtoms acc l) r) = .ok p ∧
      (∀ e ∈ p, IsEntry leaf e) ∧
      (∀ key, (acc.get? key).isSome = true → (p.get? key).isSome = true) ∧
      (l.Every (Listed p) fun w => 0 ≤ w.lower) ∧ r.Every (Listed p) fun w => 0 ≤ w.lower := by
  obtain ⟨p, hp, left⟩ := ihl acc hacc
  obtain ⟨p', hp', right⟩ := ihr p left.entries
  refine ⟨p', ?_, right.entries, fun key h => right.kept key (left.kept key h),
    left.listed.listed_mono right.kept, right.listed⟩
  rw [hp]
  exact hp'

/-- The atoms of a formula can be collected. -/
theorem Formed.collectAtoms {f : Formula} (hf : f.Formed A R)
    (hl : f.Every leaf fun w => 0 ≤ w.lower) : Collectable leaf f := by
  induction f using Formula.induct with
  | bool b => exact fun acc hacc => ⟨acc, rfl, hacc, fun _ h => h, trivial⟩
  | prop name =>
    intro acc hacc
    obtain ⟨entries, kept⟩ := collects_put hacc (a := .prop name) ⟨rfl, hl⟩
    exact ⟨_, rfl, entries, kept, by simp [Every, Listed]⟩
  | atom c =>
    intro acc hacc
    obtain ⟨entries, kept⟩ := collects_put hacc (a := .constraint c) ⟨rfl, hl⟩
    exact ⟨_, rfl, entries, kept, by simp [Every, Listed]⟩
  | not f ih =>
    intro acc hacc
    obtain ⟨p, hp, entries, kept, listed⟩ := ih hf hl acc hacc
    exact ⟨p, hp, entries, kept, listed⟩
  | and fs ih | or fs ih =>
    intro acc hacc
    have parts f (hm : f ∈ fs) : Collectable leaf f :=
      ih f hm (formedAll_iff.1 hf.2 f hm) (everyAll_iff.1 hl f hm)
    obtain ⟨p, hp, entries, kept, listed⟩ := collects_all parts hacc
    exact ⟨p, hp, entries, kept, everyAll_iff.2 listed⟩
  | implies l r ihl ihr =>
    intro acc hacc
    obtain ⟨p, hp, entries, kept, left, right⟩ :=
      collects_both (ihl hf.1 hl.1) (ihr hf.2 hl.2) hacc
    exact ⟨p, hp, entries, kept, left, right⟩
  | eventually w f ih | always w f ih =>
    intro acc hacc
    obtain ⟨p, hp, entries, kept, listed⟩ := ih hf.2 hl.2 acc hacc
    exact ⟨p, hp, entries, kept, hl.1, listed⟩
  | untl w l r ihl ihr | release w l r ihl ihr =>
    intro acc hacc
    obtain ⟨p, hp, entries, kept, left, right⟩ :=
      collects_both (ihl hf.2.1 hl.2.1) (ihr hf.2.2 hl.2.2) hacc
    exact ⟨p, hp, entries, kept, hl.1, left, right⟩
  | witness | missing => exact hf.elim

end Formula

namespace BaseValuation

/-- A table has a row for every atom of the partition. -/
theorem isSome_of_tabulate {p : Partition} {b : Timeline} {sig : Signal} {bv : BaseValuation}
    (h : tabulate p b sig = .ok bv) {key : String} (hkey : (p.get? key).isSome = true) :
    (bv.rows.get? key).isSome = true := by
  obtain ⟨rows, hrows, h⟩ := Attempt.bind_eq_ok.1 h
  cases h
  obtain ⟨a, ha⟩ := Option.isSome_iff_exists.1 hkey
  obtain ⟨r, hr, hmade⟩ := Attempt.exists_of_mapM hrows (Table.mem_of_get? ha)
  obtain ⟨r', -, h⟩ := Attempt.bind_eq_ok.1 hmade
  cases h
  obtain ⟨v, hv⟩ := Table.exists_get?_of_mem hr
  exact Option.isSome_iff_exists.2 ⟨v, hv⟩

/-- Atoms can be tabulated if a signal has a value for each of them in every step. -/
theorem exists_tabulate {p : Partition} {N : Nat} {sig : Signal}
    (cells : ∀ e ∈ p, ∀ k ∈ steps (N + 1), ∃ c, cell sig e.2 k = .ok c) :
    ∃ bv, tabulate p ⟨N⟩ sig = .ok bv ∧
      ∀ key, (p.get? key).isSome = true → (bv.rows.get? key).isSome = true := by
  have row (e : String × Atomic) (he : e ∈ p) : ∃ row, BaseValuation.row sig ⟨N⟩ e.2 = .ok row := by
    obtain ⟨row, hrow, -⟩ := Attempt.exists_mapM (P := fun _ _ => True) fun k hk => by
      obtain ⟨c, hc⟩ := cells e he k hk
      exact ⟨c, hc, trivial⟩
    exact ⟨row, row_eq_ok.2 hrow⟩
  have made : ∀ e ∈ p, ∃ r, (do return (e.1, ← BaseValuation.row sig ⟨N⟩ e.2) :
      Attempt (String × List Term)) = .ok r ∧ True := by
    intro e he
    obtain ⟨r, hr⟩ := row e he
    exact ⟨(e.1, r), by rw [hr]; rfl, trivial⟩
  obtain ⟨rows, hrows, -⟩ := Attempt.exists_mapM made
  have tabulated : tabulate p ⟨N⟩ sig = .ok ⟨⟨N⟩, rows⟩ := by
    unfold tabulate
    rw [hrows]
    rfl
  exact ⟨_, tabulated, fun key hkey => isSome_of_tabulate tabulated hkey⟩

end BaseValuation

theorem Formula.tabulated_of_listed {p : Partition} {bv : BaseValuation}
    (h : ∀ key, (p.get? key).isSome = true → (bv.rows.get? key).isSome = true) {f : Formula}
    (listed : f.Every (Listed p) fun w => 0 ≤ w.lower) :
    f.Every (Tabulated bv fun _ => False) fun w => 0 ≤ w.lower := by
  refine listed.mono (fun g hg => ?_) fun _ h => h
  cases g with
  | prop name => exact h _ hg
  | atom c => exact h _ hg
  | bool b => trivial
  | _ => exact hg.elim

end HybridCheck
